import Mathlib.Data.List.Basic
import Mathlib.Tactic.Common

/-!
# Partial machines and their runs

A machine is a step function `σ → ε → Option (σ × List ω)` : an event takes a state
to the next one and emits outputs, or goes wrong (`none`). `run` handles a list of
events and concatenates the outputs.

`run_total` is the rule for invariants : an invariant that every step keeps, and under
which no step goes wrong, makes every run succeed and holds at its end. `AllSteps` says
that a condition holds of every state and event along a run. `trace` collects, along a
run, the abstract actions each event performs in the state it meets, and
`run_simulates` replays them in an abstract model. `Runs` are the runs of a machine whose steps
are a relation, and `run_simulated` is the rule for a simulation by such a machine.
-/

namespace Machine

variable {σ ε ω τ α : Type*}

/-- Handle the events in order, with the outputs concatenated. `none` once a step goes
wrong. -/
def run (step : σ → ε → Option (σ × List ω)) : σ → List ε → Option (σ × List ω)
  | s, [] => some (s, [])
  | s, e :: es =>
    match step s e with
    | none => none
    | some (s', o) => (run step s' es).map fun r => (r.1, o ++ r.2)

variable {step : σ → ε → Option (σ × List ω)}

@[simp] theorem run_nil (s : σ) : run step s [] = some (s, []) :=
  rfl

theorem run_cons_eq_some {s s'' : σ} {e : ε} {es : List ε} {o : List ω} :
    run step s (e :: es) = some (s'', o) ↔
      ∃ s' o₁ o₂, step s e = some (s', o₁) ∧ run step s' es = some (s'', o₂) ∧ o = o₁ ++ o₂ := by
  simp only [run]
  cases hs : step s e with
  | none => simp
  | some r =>
    obtain ⟨s', o₁⟩ := r
    simp only [Option.map_eq_some_iff, Option.some.injEq, Prod.mk.injEq]
    constructor
    · rintro ⟨⟨t, o₂⟩, hr, rfl, rfl⟩
      exact ⟨s', o₁, o₂, ⟨rfl, rfl⟩, hr, rfl⟩
    · rintro ⟨_, _, o₂, ⟨rfl, rfl⟩, hr, rfl⟩
      exact ⟨(s'', o₂), hr, rfl, rfl⟩

theorem run_append_eq_some {s s'' : σ} {es es' : List ε} {o : List ω} :
    run step s (es ++ es') = some (s'', o) ↔
      ∃ s' o₁ o₂, run step s es = some (s', o₁) ∧ run step s' es' = some (s'', o₂) ∧
        o = o₁ ++ o₂ := by
  induction es generalizing s o with
  | nil =>
    simp only [List.nil_append, run_nil, Option.some.injEq, Prod.mk.injEq]
    constructor
    · intro h
      exact ⟨s, [], o, ⟨rfl, rfl⟩, h, rfl⟩
    · rintro ⟨_, _, _, ⟨rfl, rfl⟩, h, rfl⟩
      exact h
  | cons e es ih =>
    rw [List.cons_append, run_cons_eq_some]
    constructor
    · rintro ⟨s₁, o₁, o₂, hs, hr, rfl⟩
      obtain ⟨s₂, o₃, o₄, h₃, h₄, rfl⟩ := ih.1 hr
      exact ⟨s₂, o₁ ++ o₃, o₄, run_cons_eq_some.2 ⟨s₁, o₁, o₃, hs, h₃, rfl⟩, h₄, by simp⟩
    · rintro ⟨s₂, o₁, o₂, hr, h₂, rfl⟩
      obtain ⟨s₁, o₃, o₄, hs, h₄, rfl⟩ := run_cons_eq_some.1 hr
      exact ⟨s₁, o₃, o₄ ++ o₂, hs, ih.2 ⟨s₂, o₄, o₂, h₄, h₂, rfl⟩, by simp⟩

/-! ## Invariants -/

/-- An invariant kept by every step that succeeds holds at the end of every run. -/
theorem run_invariant {Inv : σ → Prop}
    (hstep : ∀ s e s' o, Inv s → step s e = some (s', o) → Inv s') {s s' : σ} {es : List ε}
    {o : List ω} (h : Inv s) (hr : run step s es = some (s', o)) : Inv s' := by
  induction es generalizing s o with
  | nil =>
    obtain ⟨rfl, -⟩ : s = s' ∧ [] = o := by simpa using hr
    exact h
  | cons e es ih =>
    obtain ⟨s₁, _, _, hs, hr', -⟩ := run_cons_eq_some.1 hr
    exact ih (hstep _ _ _ _ h hs) hr'

/-- If no step goes wrong under an invariant, and each keeps it, every run succeeds. -/
theorem run_total {Inv : σ → Prop} (hstep : ∀ s e, Inv s → ∃ s' o, step s e = some (s', o) ∧ Inv s')
    {s : σ} (h : Inv s) (es : List ε) : ∃ s' o, run step s es = some (s', o) ∧ Inv s' := by
  induction es generalizing s with
  | nil => exact ⟨s, [], rfl, h⟩
  | cons e es ih =>
    obtain ⟨s₁, o₁, hs, h₁⟩ := hstep s e h
    obtain ⟨s₂, o₂, hr, h₂⟩ := ih h₁
    exact ⟨s₂, o₁ ++ o₂, run_cons_eq_some.2 ⟨s₁, o₁, o₂, hs, hr, rfl⟩, h₂⟩

/-- An invariant of the state and the outputs so far holds at the end of every run. -/
theorem run_invariant_out {Inv : σ → List ω → Prop}
    (hstep : ∀ s e s' o o', Inv s o → step s e = some (s', o') → Inv s' (o ++ o')) {s s' : σ}
    {es : List ε} {o o' : List ω} (h : Inv s o) (hr : run step s es = some (s', o')) :
    Inv s' (o ++ o') := by
  induction es generalizing s o o' with
  | nil =>
    obtain ⟨rfl, rfl⟩ : s = s' ∧ [] = o' := by simpa using hr
    rwa [List.append_nil]
  | cons e es ih =>
    obtain ⟨s₁, o₁, o₂, hs, hr', rfl⟩ := run_cons_eq_some.1 hr
    rw [← List.append_assoc]
    exact ih (hstep _ _ _ _ _ h hs) hr'

/-! ## Conditions along a run -/

/-- `C` holds of every event of the run and the state it meets. -/
def AllSteps (step : σ → ε → Option (σ × List ω)) (C : σ → ε → Prop) : σ → List ε → Prop
  | _, [] => True
  | s, e :: es => C s e ∧ ∀ s' o, step s e = some (s', o) → AllSteps step C s' es

/-- An invariant that steps under the condition `C` keep holds at the end of every run
whose steps meet `C`. -/
theorem run_invariant_of_allSteps {Inv : σ → Prop} {C : σ → ε → Prop}
    (hstep : ∀ s e s' o, Inv s → C s e → step s e = some (s', o) → Inv s') {s s' : σ}
    {es : List ε} {o : List ω} (h : Inv s) (hC : AllSteps step C s es)
    (hr : run step s es = some (s', o)) : Inv s' := by
  induction es generalizing s o with
  | nil =>
    obtain ⟨rfl, -⟩ : s = s' ∧ [] = o := by simpa using hr
    exact h
  | cons e es ih =>
    obtain ⟨s₁, _, _, hs, hr', -⟩ := run_cons_eq_some.1 hr
    exact ih (hstep _ _ _ _ h hC.1 hs) (hC.2 _ _ hs) hr'

/-- An invariant of the state and the outputs so far that steps under the condition `C` keep
holds at the end of every run whose steps meet `C`. -/
theorem run_invariant_out_of_allSteps {Inv : σ → List ω → Prop} {C : σ → ε → Prop}
    (hstep : ∀ s e s' o o', Inv s o → C s e → step s e = some (s', o') → Inv s' (o ++ o'))
    {s s' : σ} {es : List ε} {o o' : List ω} (h : Inv s o) (hC : AllSteps step C s es)
    (hr : run step s es = some (s', o')) : Inv s' (o ++ o') := by
  induction es generalizing s o o' with
  | nil =>
    obtain ⟨rfl, rfl⟩ : s = s' ∧ [] = o' := by simpa using hr
    rwa [List.append_nil]
  | cons e es ih =>
    obtain ⟨s₁, o₁, o₂, hs, hr', rfl⟩ := run_cons_eq_some.1 hr
    rw [← List.append_assoc]
    exact ih (hstep _ _ _ _ _ h hC.1 hs) (hC.2 _ _ hs) hr'

/-- If no step that meets the condition goes wrong under an invariant, and each keeps it,
every run whose steps meet the condition succeeds. -/
theorem run_total_of_allSteps {Inv : σ → Prop} {C : σ → ε → Prop}
    (hstep : ∀ s e, Inv s → C s e → ∃ s' o, step s e = some (s', o) ∧ Inv s') {s : σ}
    {es : List ε} (h : Inv s) (hC : AllSteps step C s es) :
    ∃ s' o, run step s es = some (s', o) ∧ Inv s' := by
  induction es generalizing s with
  | nil => exact ⟨s, [], rfl, h⟩
  | cons e es ih =>
    obtain ⟨s₁, o₁, hs, h₁⟩ := hstep s e h hC.1
    obtain ⟨s₂, o₂, hr, h₂⟩ := ih h₁ (hC.2 s₁ o₁ hs)
    exact ⟨s₂, o₁ ++ o₂, run_cons_eq_some.2 ⟨s₁, o₁, o₂, hs, hr, rfl⟩, h₂⟩

/-- A run with a step that fails the condition has a first one. -/
theorem exists_of_not_allSteps {C : σ → ε → Prop} {s : σ} {es : List ε}
    (h : ¬AllSteps step C s es) : ∃ pre e post s' o, es = pre ++ e :: post ∧
      run step s pre = some (s', o) ∧ AllSteps step C s pre ∧ ¬C s' e := by
  induction es generalizing s with
  | nil => exact absurd trivial h
  | cons e es ih =>
    by_cases hC : C s e
    · have hrest : ∃ s₁ o₁, step s e = some (s₁, o₁) ∧ ¬AllSteps step C s₁ es := by
        simpa [AllSteps, hC] using h
      obtain ⟨s₁, o₁, hs, hn⟩ := hrest
      obtain ⟨pre, e', post, s', o, rfl, hr, hall, hne⟩ := ih hn
      refine ⟨e :: pre, e', post, s', o₁ ++ o, rfl,
        run_cons_eq_some.2 ⟨s₁, o₁, o, hs, hr, rfl⟩, ⟨hC, fun s₂ o₂ hs₂ => ?_⟩, hne⟩
      obtain ⟨rfl, -⟩ : s₁ = s₂ ∧ o₁ = o₂ := by simpa [hs] using hs₂
      exact hall
    · exact ⟨[], e, es, s, [], rfl, rfl, trivial, hC⟩

/-- The condition holds of each event after each prefix of the run. -/
theorem allSteps_iff {C : σ → ε → Prop} {s : σ} {es : List ε} :
    AllSteps step C s es ↔
      ∀ pre e post, es = pre ++ e :: post → ∀ s' o, run step s pre = some (s', o) → C s' e := by
  induction es generalizing s with
  | nil => simp [AllSteps]
  | cons e₀ es ih =>
    constructor
    · rintro ⟨h₀, h⟩ pre e post hes s' o hr
      cases pre with
      | nil =>
        obtain ⟨rfl, -⟩ := List.cons.inj hes
        obtain ⟨rfl, -⟩ : s = s' ∧ [] = o := by simpa using hr
        exact h₀
      | cons e₁ pre =>
        rw [List.cons_append, List.cons.injEq] at hes
        obtain ⟨rfl, hes⟩ := hes
        obtain ⟨s₁, o₁, o₂, hs, hr', -⟩ := run_cons_eq_some.1 hr
        exact ih.1 (h s₁ o₁ hs) pre e post hes s' o₂ hr'
    · intro h
      refine ⟨h [] e₀ es rfl s [] rfl, fun s₁ o₁ hs => ih.2 fun pre e post hes s' o hr => ?_⟩
      exact h (e₀ :: pre) e post (by rw [hes, List.cons_append]) s' (o₁ ++ o)
        (run_cons_eq_some.2 ⟨s₁, o₁, o, hs, hr, rfl⟩)

/-- A condition that implies another on every step under an invariant does so along every
run. -/
theorem AllSteps.imp {Inv : σ → Prop} {C C' : σ → ε → Prop}
    (himp : ∀ s e, Inv s → C s e → C' s e)
    (hstep : ∀ s e s' o, Inv s → C s e → step s e = some (s', o) → Inv s') {s : σ} {es : List ε}
    (h : Inv s) (hC : AllSteps step C s es) : AllSteps step C' s es := by
  induction es generalizing s with
  | nil => trivial
  | cons e es ih =>
    exact ⟨himp s e h hC.1, fun s' o hs => ih (hstep s e s' o h hC.1 hs) (hC.2 s' o hs)⟩

/-- A condition along a run holds along what comes first of it. -/
theorem AllSteps.of_isPrefix {C : σ → ε → Prop} {s : σ} {es es' : List ε} (h : es <+: es')
    (hC : AllSteps step C s es') : AllSteps step C s es := by
  obtain ⟨rest, rfl⟩ := h
  rw [allSteps_iff] at hC ⊢
  rintro pre e post rfl s' o hr
  exact hC pre e (post ++ rest) (by simp) s' o hr

/-- Two conditions that agree on every step under an invariant hold along the same runs,
if the steps that meet them keep the invariant. -/
theorem allSteps_congr {Inv : σ → Prop} {C C' : σ → ε → Prop}
    (hiff : ∀ s e s' o, Inv s → step s e = some (s', o) → (C s e ↔ C' s e))
    (hstep : ∀ s e s' o, Inv s → C s e → step s e = some (s', o) → Inv s') {s s' : σ}
    {es : List ε} {o : List ω} (h : Inv s) (hr : run step s es = some (s', o)) :
    AllSteps step C s es ↔ AllSteps step C' s es := by
  induction es generalizing s o with
  | nil => rfl
  | cons e es ih =>
    obtain ⟨s₁, o₁, o₂, hs, hr', -⟩ := run_cons_eq_some.1 hr
    have hrest : ∀ D : σ → ε → Prop,
        (∀ s' o, step s e = some (s', o) → AllSteps step D s' es) ↔ AllSteps step D s₁ es := by
      intro D
      simp [hs]
    simp only [AllSteps, hrest, ← hiff s e s₁ o₁ h hs]
    exact and_congr_right fun hC => ih (hstep s e s₁ o₁ h hC hs) hr'

instance AllSteps.decidable {C : σ → ε → Prop} [∀ s e, Decidable (C s e)] :
    (s : σ) → (es : List ε) → Decidable (AllSteps step C s es)
  | _, [] => isTrue trivial
  | s, e :: es =>
    match hs : step s e with
    | none => decidable_of_iff (C s e) (by simp [AllSteps, hs])
    | some (s', _) =>
      have := AllSteps.decidable (C := C) s' es
      decidable_of_iff (C s e ∧ AllSteps step C s' es) (by simp [AllSteps, hs])

/-! ## Simulation -/

theorem run_map {δ : Type*} (f : δ → ε) (s : σ) (es : List δ) :
    run step s (es.map f) = run (fun s e => step s (f e)) s es := by
  induction es generalizing s with
  | nil => rfl
  | cons e es ih =>
    simp only [List.map_cons, run]
    cases step s (f e) with
    | none => rfl
    | some r => simp only [ih]

/-- If each step under the invariant is a step of a second machine, with the same outputs,
so is each run. -/
theorem run_refines {step' : τ → ε → Option (τ × List ω)} {Inv : σ → Prop} (abs : σ → τ)
    (hsim : ∀ s e s' o, Inv s → step s e = some (s', o) →
      Inv s' ∧ step' (abs s) e = some (abs s', o)) {s s' : σ} {es : List ε} {o : List ω} (h : Inv s)
    (hr : run step s es = some (s', o)) : run step' (abs s) es = some (abs s', o) := by
  induction es generalizing s o with
  | nil =>
    obtain ⟨rfl, rfl⟩ : s = s' ∧ [] = o := by simpa using hr
    rfl
  | cons e es ih =>
    obtain ⟨s₁, o₁, o₂, hs, hr', rfl⟩ := run_cons_eq_some.1 hr
    obtain ⟨h₁, hs'⟩ := hsim s e s₁ o₁ h hs
    exact run_cons_eq_some.2 ⟨abs s₁, o₁, o₂, hs', ih h₁ hr', rfl⟩

/-- The runs of a machine whose steps are a relation. -/
inductive Runs (R : τ → ε → τ → List ω → Prop) : τ → List ε → τ → List ω → Prop
  | nil {t : τ} : Runs R t [] t []
  | cons {t t' t'' : τ} {e : ε} {es : List ε} {o o' : List ω} (h : R t e t' o)
    (hs : Runs R t' es t'' o') : Runs R t (e :: es) t'' (o ++ o')

/-- Suppose that each step from related states is one of a second machine, to related states and
with the same outputs, unless it is one that parts them. Then so is each run, up to the first
step that does. -/
theorem run_simulated {R : τ → ε → τ → List ω → Prop} {Rel : σ → τ → Prop} {P : τ → ε → Prop}
    (hsim : ∀ s t e s' o, Rel s t → ¬P t e → step s e = some (s', o) →
      ∃ t', R t e t' o ∧ Rel s' t')
    {s s' : σ} {t : τ} {es : List ε} {o : List ω} (h : Rel s t)
    (hr : run step s es = some (s', o)) :
    (∃ t', Runs R t es t' o ∧ Rel s' t') ∨
      ∃ pre e post s₁ t₁ o₁, es = pre ++ e :: post ∧ run step s pre = some (s₁, o₁) ∧
        Runs R t pre t₁ o₁ ∧ Rel s₁ t₁ ∧ P t₁ e ∧ ∃ s₂ o₂, step s₁ e = some (s₂, o₂) := by
  induction es generalizing s t o with
  | nil =>
    obtain ⟨rfl, rfl⟩ : s = s' ∧ [] = o := by simpa using hr
    exact Or.inl ⟨t, .nil, h⟩
  | cons e es ih =>
    obtain ⟨s₁, o₁, o₂, hs, hr', rfl⟩ := run_cons_eq_some.1 hr
    by_cases hp : P t e
    · exact Or.inr ⟨[], e, es, s, t, [], rfl, rfl, .nil, h, hp, s₁, o₁, hs⟩
    · obtain ⟨t₁, ht, h₁⟩ := hsim s t e s₁ o₁ h hp hs
      rcases ih h₁ hr' with ⟨t', hts, h'⟩ | ⟨pre, e', post, s₂, t₂, o₃, rfl, hrun, hruns, hrest⟩
      · exact Or.inl ⟨t', .cons ht hts, h'⟩
      · exact Or.inr ⟨e :: pre, e', post, s₂, t₂, o₁ ++ o₃, rfl,
          run_cons_eq_some.2 ⟨s₁, o₁, o₃, hs, hrun, rfl⟩, .cons ht hruns, hrest⟩

/-- The abstract actions of a run : each event's, in the state it meets. -/
def trace (step : σ → ε → Option (σ × List ω)) (act : σ → ε → List α) : σ → List ε → List α
  | _, [] => []
  | s, e :: es =>
    act s e ++ match step s e with
      | none => []
      | some (s', _) => trace step act s' es

theorem trace_cons {act : σ → ε → List α} {s s' : σ} {e : ε} {es : List ε} {o : List ω}
    (h : step s e = some (s', o)) :
    trace step act s (e :: es) = act s e ++ trace step act s' es := by
  simp [trace, h]

theorem trace_map {β : Type*} {act : σ → ε → List α} (f : α → β) (s : σ) (es : List ε) :
    trace step (fun s e => (act s e).map f) s es = (trace step act s es).map f := by
  induction es generalizing s with
  | nil => rfl
  | cons e es ih =>
    cases hs : step s e with
    | none => simp [trace, hs]
    | some r => simp [trace, hs, ih]

/-- If each step under the invariant does to the abstract value what its actions do,
a run does what its trace does. -/
theorem run_simulates {Inv : σ → Prop} (abs : σ → τ) (astep : τ → α → τ) {act : σ → ε → List α}
    (hinv : ∀ s e s' o, Inv s → step s e = some (s', o) → Inv s')
    (hsim : ∀ s e s' o, Inv s → step s e = some (s', o) →
      abs s' = (act s e).foldl astep (abs s)) {s s' : σ} {es : List ε} {o : List ω} (h : Inv s)
    (hr : run step s es = some (s', o)) :
    abs s' = (trace step act s es).foldl astep (abs s) := by
  induction es generalizing s o with
  | nil =>
    obtain ⟨rfl, -⟩ : s = s' ∧ [] = o := by simpa using hr
    rfl
  | cons e es ih =>
    obtain ⟨s₁, _, _, hs, hr', -⟩ := run_cons_eq_some.1 hr
    rw [ih (hinv _ _ _ _ h hs) hr', trace_cons hs, List.foldl_append, hsim _ _ _ _ h hs]

end Machine
