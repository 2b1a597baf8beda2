import ClassProjects.Lib.ForLoop

/-!
# Do-while loops

`exec body test fuel` runs `do body while test` for at most `fuel` passes. A pass may go
wrong (`none`), and so does a loop that runs out of fuel. `Returns` says that the loop ends
without either : some fuel is enough, and more fuel makes no difference (`exec_mono`).

A loop returns if every pass under an invariant that does not end it decreases a measure
(`returns_of_measure`). It never returns if the test holds after every pass under an
invariant that each pass keeps (`not_returns`).

`Reaches` relates the state before the loop to those behind its passes, whether the loop
ends or not. It ends where a state is reached in which the test fails (`returns_iff`). Two
loops whose passes agree up to a relation do the same (`exec_rel`).

A body with a loop of its own is a family of bodies, one for each amount of fuel, and `Ends`
says that the loop ends with some of it. It does so exactly if a pass of it ends and the rest
does (`ends_iff`).
-/

namespace DoWhile

variable {σ : Type*} {body : σ → Option σ} {test : σ → Bool} {s s' : σ}

/-- Run the loop for at most `fuel` passes. -/
def exec (body : σ → Option σ) (test : σ → Bool) : ℕ → σ → Option σ
  | 0, _ => none
  | fuel + 1, s => (body s).bind fun s' => if test s' then exec body test fuel s' else some s'

/-- The loop, started in `s`, ends in `s'`. -/
def Returns (body : σ → Option σ) (test : σ → Bool) (s s' : σ) : Prop :=
  ∃ fuel, exec body test fuel s = some s'

theorem exec_mono {n m : ℕ} (h : exec body test n s = some s') (hnm : n ≤ m) :
    exec body test m s = some s' := by
  induction n generalizing s m with
  | zero => cases h
  | succ n ih =>
    obtain ⟨m, rfl⟩ : ∃ k, m = k + 1 := ⟨m - 1, by omega⟩
    obtain ⟨s₁, hs₁, h⟩ := Option.bind_eq_some_iff.1 h
    refine Option.bind_eq_some_iff.2 ⟨s₁, hs₁, ?_⟩
    split_ifs at h ⊢
    · exact ih h (by omega)
    · exact h

/-- A loop whose passes do what those of another do ends where that one does. -/
theorem exec_imp {body' : σ → Option σ} {n : ℕ}
    (hbody : ∀ s s', body s = some s' → body' s = some s') (h : exec body test n s = some s') :
    exec body' test n s = some s' := by
  induction n generalizing s with
  | zero => cases h
  | succ n ih =>
    obtain ⟨s₁, hs₁, h⟩ := Option.bind_eq_some_iff.1 h
    refine Option.bind_eq_some_iff.2 ⟨s₁, hbody s s₁ hs₁, ?_⟩
    split_ifs at h ⊢
    · exact ih h
    · exact h

/-- A loop ends in one state only. -/
theorem Returns.unique {s'' : σ} (h : Returns body test s s') (h' : Returns body test s s'') :
    s' = s'' := by
  obtain ⟨n, hn⟩ := h
  obtain ⟨m, hm⟩ := h'
  have h₁ := exec_mono hn (Nat.le_max_left n m)
  rw [exec_mono hm (Nat.le_max_right n m)] at h₁
  exact (Option.some.inj h₁).symm

/-- A pass that ends the loop. -/
theorem returns_of_not (hs : body s = some s') (ht : test s' = false) : Returns body test s s' :=
  ⟨1, by simp [exec, hs, ht]⟩

/-- A pass after which the loop goes on. -/
theorem returns_of_test {s₁ : σ} (hs : body s = some s₁) (ht : test s₁ = true)
    (h : Returns body test s₁ s') : Returns body test s s' := by
  obtain ⟨fuel, hf⟩ := h
  exact ⟨fuel + 1, by simp [exec, hs, ht, hf]⟩

/-- A loop ends if its first pass does, and the loop from there on unless the test fails. -/
theorem returns_step_iff : Returns body test s s' ↔
    ∃ s₁, body s = some s₁ ∧ if test s₁ then Returns body test s₁ s' else s₁ = s' := by
  constructor
  · rintro ⟨fuel, hf⟩
    cases fuel with
    | zero => cases hf
    | succ fuel =>
      obtain ⟨s₁, hs, hf⟩ := Option.bind_eq_some_iff.1 hf
      refine ⟨s₁, hs, ?_⟩
      split_ifs at hf ⊢
      · exact ⟨fuel, hf⟩
      · exact Option.some.inj hf
  · rintro ⟨s₁, hs, h⟩
    split_ifs at h with ht
    · exact returns_of_test hs ht h
    · obtain rfl := h
      exact returns_of_not hs (eq_false_of_ne_true ht)

/-- If every pass under the invariant ends the loop in `Q`, or keeps the invariant and
decreases the measure, the loop ends in `Q`. -/
theorem returns_of_measure {Inv Q : σ → Prop} (measure : σ → ℕ)
    (hbody : ∀ s, Inv s → ∃ s', body s = some s' ∧
      ((test s' = false ∧ Q s') ∨ (test s' = true ∧ Inv s' ∧ measure s' < measure s)))
    (h : Inv s) : ∃ s', Returns body test s s' ∧ Q s' := by
  induction hm : measure s using Nat.strongRecOn generalizing s with
  | ind m ih =>
    obtain ⟨s₁, hs, ⟨ht, hQ⟩ | ⟨ht, h₁, hlt⟩⟩ := hbody s h
    · exact ⟨s₁, returns_of_not hs ht, hQ⟩
    · obtain ⟨s', hr, hQ⟩ := ih (measure s₁) (by omega) h₁ rfl
      exact ⟨s', returns_of_test hs ht hr, hQ⟩

/-- If the test holds after every pass under an invariant that each pass keeps, the loop
does not end. -/
theorem not_returns {Inv : σ → Prop}
    (hbody : ∀ s s', Inv s → body s = some s' → test s' = true ∧ Inv s') (h : Inv s) :
    ¬Returns body test s s' := by
  rintro ⟨fuel, hf⟩
  induction fuel generalizing s with
  | zero => cases hf
  | succ fuel ih =>
    obtain ⟨s₁, hs, hf⟩ := Option.bind_eq_some_iff.1 hf
    obtain ⟨ht, h₁⟩ := hbody s s₁ h hs
    rw [if_pos ht] at hf
    exact ih h₁ hf

/-- Two loops with passes that take related states to related ones, and end together, do the
same. -/
theorem exec_rel {τ : Type*} {body' : τ → Option τ} {test' : τ → Bool} {R R' : σ → τ → Prop}
    (hbody : ∀ s t, R s t → Option.Rel R' (body s) (body' t))
    (htest : ∀ s t, R' s t → test s = test' t ∧ (test s = true → R s t)) {t : τ} (h : R s t)
    (n : ℕ) : Option.Rel R' (exec body test n s) (exec body' test' n t) := by
  induction n generalizing s t with
  | zero => exact .none
  | succ n ih =>
    refine ForLoop.rel_bind (hbody s t h) fun s₁ t₁ h₁ => ?_
    obtain ⟨heq, hgo⟩ := htest s₁ t₁ h₁
    rw [← heq]
    split_ifs with ht₁
    · exact ih (hgo ht₁)
    · exact .some h₁

/-! ## The states behind the passes -/

/-- The loop, started in `s`, is in the given state behind one of its passes. -/
inductive Reaches (body : σ → Option σ) (test : σ → Bool) (s : σ) : σ → Prop
  | first {s' : σ} (h : body s = some s') : Reaches body test s s'
  | next {s' s'' : σ} (h : Reaches body test s s') (ht : test s' = true)
    (hs : body s' = some s'') : Reaches body test s s''

theorem Reaches.of_test {s₁ : σ} (hs : body s = some s₁) (ht : test s₁ = true)
    (h : Reaches body test s₁ s') : Reaches body test s s' := by
  induction h with
  | first h => exact .next (.first hs) ht h
  | next _ ht' hs' ih => exact .next ih ht' hs'

/-- The loop goes on from each state it reaches, or ends there. -/
theorem Reaches.returns (h : Reaches body test s s') :
    (∀ s'', test s' = true → Returns body test s' s'' → Returns body test s s'') ∧
      (test s' = false → Returns body test s s') := by
  induction h with
  | first hs => exact ⟨fun _ => returns_of_test hs, returns_of_not hs⟩
  | next _ ht hs ih =>
    exact ⟨fun s'' ht' hr => ih.1 s'' ht (returns_of_test hs ht' hr),
      fun ht' => ih.1 _ ht (returns_of_not hs ht')⟩

/-- A loop ends in the states behind its passes in which the test fails. -/
theorem returns_iff : Returns body test s s' ↔ Reaches body test s s' ∧ test s' = false := by
  constructor
  · rintro ⟨fuel, hf⟩
    induction fuel generalizing s with
    | zero => cases hf
    | succ fuel ih =>
      obtain ⟨s₁, hs, hf⟩ := Option.bind_eq_some_iff.1 hf
      split_ifs at hf with ht
      · obtain ⟨hreach, htest⟩ := ih hf
        exact ⟨.of_test hs ht hreach, htest⟩
      · obtain rfl := Option.some.inj hf
        exact ⟨.first hs, eq_false_of_ne_true ht⟩
  · exact fun ⟨hreach, htest⟩ => hreach.returns.2 htest

/-- What a pass establishes, if what it needs holds before the loop and before each pass that
goes on, holds in each state the loop reaches. -/
theorem Reaches.spec {I J : σ → Prop} (hbody : ∀ s s', I s → body s = some s' → J s')
    (htest : ∀ s, J s → test s = true → I s) (hs : I s) (h : Reaches body test s s') : J s' := by
  induction h with
  | first hs₁ => exact hbody _ _ hs hs₁
  | next _ ht hs₁ ih => exact hbody _ _ (htest _ ih ht) hs₁

/-! ## Nested loops -/

/-- With more fuel a body does no less. -/
def Mono (body : ℕ → σ → Option σ) : Prop :=
  ∀ n m s s', n ≤ m → body n s = some s' → body m s = some s'

/-- The loop, started in `s`, ends in `s'` with some amount of fuel for it and for its body. -/
def Ends (body : ℕ → σ → Option σ) (test : σ → Bool) (s s' : σ) : Prop :=
  ∃ fuel, exec (body fuel) test fuel s = some s'

variable {bodies : ℕ → σ → Option σ}

theorem exec_mono_body {n m k : ℕ} (hmono : Mono bodies) (hnm : n ≤ m)
    (h : exec (bodies n) test k s = some s') : exec (bodies m) test k s = some s' :=
  exec_imp (fun s s' => hmono n m s s' hnm) h

/-- A loop ends in one state only. -/
theorem Ends.unique {s'' : σ} (hmono : Mono bodies) (h : Ends bodies test s s')
    (h' : Ends bodies test s s'') : s' = s'' := by
  obtain ⟨n, hn⟩ := h
  obtain ⟨m, hm⟩ := h'
  have h₁ := exec_mono_body hmono (Nat.le_max_left n m) hn
  have h₂ := exec_mono_body hmono (Nat.le_max_right n m) hm
  exact Returns.unique ⟨n, h₁⟩ ⟨m, h₂⟩

/-- A loop ends if its first pass does, and the loop from there on unless the test fails. -/
theorem ends_iff (hmono : Mono bodies) : Ends bodies test s s' ↔
    ∃ fuel s₁, bodies fuel s = some s₁ ∧ if test s₁ then Ends bodies test s₁ s' else s₁ = s' := by
  constructor
  · rintro ⟨fuel, hf⟩
    cases fuel with
    | zero => cases hf
    | succ fuel =>
      obtain ⟨s₁, hs, hf⟩ := Option.bind_eq_some_iff.1 hf
      refine ⟨fuel + 1, s₁, hs, ?_⟩
      split_ifs at hf ⊢
      · exact ⟨fuel + 1, exec_mono hf (Nat.le_succ fuel)⟩
      · exact Option.some.inj hf
  · rintro ⟨n, s₁, hs, h⟩
    split_ifs at h with ht
    · obtain ⟨m, hm⟩ := h
      refine ⟨max n m + 1, Option.bind_eq_some_iff.2 ⟨s₁, hmono _ _ _ _ (by omega) hs, ?_⟩⟩
      rw [if_pos ht]
      exact exec_mono (exec_mono_body hmono (by omega) hm) (Nat.le_max_right n m)
    · obtain rfl := h
      refine ⟨n + 1, Option.bind_eq_some_iff.2 ⟨s₁, hmono _ _ _ _ (Nat.le_succ n) hs, ?_⟩⟩
      rw [if_neg ht]

/-- A pass that ends with some fuel decides how the loop goes on. -/
theorem ends_iff_of_body {n : ℕ} {s₁ : σ} (hmono : Mono bodies) (hs : bodies n s = some s₁) :
    Ends bodies test s s' ↔ if test s₁ then Ends bodies test s₁ s' else s₁ = s' := by
  rw [ends_iff hmono]
  constructor
  · rintro ⟨m, s₂, hs₂, h⟩
    have heq := hmono m _ _ _ (Nat.le_max_right n m) hs₂
    rw [hmono n _ _ _ (Nat.le_max_left n m) hs] at heq
    rwa [Option.some.inj heq]
  · exact fun h => ⟨n, s₁, hs, h⟩

end DoWhile
