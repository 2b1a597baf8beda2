import Mathlib.Data.List.TakeWhile
import Mathlib.Tactic.Common

/-!
# Tokens

A text is cut at its delimiters, the elements on which `p` holds. `List.splitOnP` keeps the
empty pieces, `runs` drops them : its pieces are the maximal runs of other elements.

`next` reads one token as `strtok_r` does. It skips the delimiters at the head, and takes
what is before the next one ; the rest is what is behind that. `all` reads tokens until
there are no more, and reads the runs (`all_eq_runs`). So a delimiter next to another one,
at the head or at the end leaves no trace.
-/

namespace Tokens

variable {α : Type*} {p q : α → Bool} {s t : List α} {c : α}

/-- The maximal runs without a delimiter. -/
def runs (p : α → Bool) (s : List α) : List (List α) :=
  (s.splitOnP p).filter fun t => !t.isEmpty

/-- The next token, and the rest behind the delimiter that ends it. -/
def next (p : α → Bool) (s : List α) : Option (List α × List α) :=
  match s.dropWhile p with
  | [] => none
  | c :: s => some ((c :: s).takeWhile (!p ·), ((c :: s).dropWhile (!p ·)).drop 1)

/-- Read at most `fuel` tokens. -/
def all (p : α → Bool) : ℕ → List α → List (List α)
  | 0, _ => []
  | fuel + 1, s =>
    match next p s with
    | none => []
    | some (t, rest) => t :: all p fuel rest

/-! ## Runs -/

@[simp] theorem runs_nil : runs p [] = [] :=
  rfl

/-- A delimiter separates the runs before it from those behind it. -/
theorem runs_append_cons (hc : p c = true) (s t : List α) :
    runs p (s ++ c :: t) = runs p s ++ runs p t := by
  rw [runs, List.splitOnP_append_cons s t hc, List.filter_append, runs, runs]

theorem runs_cons (hc : p c = true) (s : List α) : runs p (c :: s) = runs p s := by
  simpa using runs_append_cons hc [] s

theorem runs_append_singleton (hc : p c = true) (s : List α) : runs p (s ++ [c]) = runs p s := by
  simpa using runs_append_cons hc s []

theorem runs_eq_singleton (hs : s ≠ []) (h : ∀ x ∈ s, p x = false) : runs p s = [s] := by
  simp [runs, List.splitOnP_eq_singleton h, hs]

theorem runs_append_of_forall (hs : ∀ x ∈ s, p x = true) (t : List α) :
    runs p (s ++ t) = runs p t := by
  induction s with
  | nil => rfl
  | cons x s ih =>
    obtain ⟨hx, hs⟩ := List.forall_mem_cons.1 hs
    rw [List.cons_append, runs_cons hx, ih hs]

theorem runs_append_of_forall_right (s : List α) (ht : ∀ x ∈ t, p x = true) :
    runs p (s ++ t) = runs p s := by
  cases t with
  | nil => rw [List.append_nil]
  | cons x t =>
    obtain ⟨hx, ht⟩ := List.forall_mem_cons.1 ht
    rw [runs_append_cons hx, ← List.append_nil t, runs_append_of_forall ht, runs_nil,
      List.append_nil]

theorem runs_dropWhile (p : α → Bool) (s : List α) : runs p (s.dropWhile p) = runs p s := by
  induction s with
  | nil => rfl
  | cons c s ih =>
    cases hc : p c with
    | true => rw [List.dropWhile_cons_of_pos hc, ih, runs_cons hc]
    | false => rw [List.dropWhile_cons_of_neg (by simp [hc])]

/-- A run ends where the text does, or at a delimiter. -/
theorem runs_cons_of_not (hc : p c = false) (s : List α) :
    runs p (c :: s) =
      (c :: s).takeWhile (!p ·) :: runs p (((c :: s).dropWhile (!p ·)).drop 1) := by
  have happ := List.takeWhile_append_dropWhile (p := (!p ·)) (l := c :: s)
  have hne : (c :: s).takeWhile (!p ·) ≠ [] := by simp [hc]
  have hrun : ∀ x ∈ (c :: s).takeWhile (!p ·), p x = false := by
    intro x hx
    simpa using List.mem_takeWhile_imp hx
  cases hr : (c :: s).dropWhile (!p ·) with
  | nil =>
    rw [hr, List.append_nil] at happ
    rw [happ] at hrun ⊢
    exact runs_eq_singleton (List.cons_ne_nil c s) hrun
  | cons y r =>
    have hy : p y = true := by
      simpa [hr] using List.head_dropWhile_not (!p ·) (l := c :: s) (by simp [hr])
    rw [hr] at happ
    conv_lhs => rw [← happ, runs_append_cons hy, runs_eq_singleton hne hrun]
    rfl

/-- Delimiters and the first run, up to its end or to the delimiter there. -/
theorem runs_cases (p : α → Bool) (s : List α) : (∀ x ∈ s, p x = true) ∨
    ∃ d t, (∀ x ∈ d, p x = true) ∧ t ≠ [] ∧ (∀ x ∈ t, p x = false) ∧
      ((s = d ++ t ∧ runs p s = [t]) ∨
        ∃ c rest, p c = true ∧ s = d ++ (t ++ c :: rest) ∧ runs p s = t :: runs p rest) := by
  have hs := List.takeWhile_append_dropWhile (p := p) (l := s)
  have hd : ∀ x ∈ s.takeWhile p, p x = true := fun x => List.mem_takeWhile_imp
  cases hu : s.dropWhile p with
  | nil =>
    rw [hu, List.append_nil] at hs
    exact Or.inl (hs ▸ hd)
  | cons y u =>
    have hy : p y = false := by
      simpa [hu] using List.head_dropWhile_not p (l := s) (by simp [hu])
    have ht : ∀ x ∈ (y :: u).takeWhile (!p ·), p x = false := by
      intro x hx
      simpa using List.mem_takeWhile_imp hx
    have hsplit := List.takeWhile_append_dropWhile (p := (!p ·)) (l := y :: u)
    have hruns : runs p s = runs p (y :: u) := by rw [← runs_dropWhile, hu]
    rw [runs_cons_of_not hy] at hruns
    refine Or.inr ⟨s.takeWhile p, (y :: u).takeWhile (!p ·), hd, by simp [hy], ht, ?_⟩
    cases hr : (y :: u).dropWhile (!p ·) with
    | nil =>
      rw [hr, List.append_nil] at hsplit
      rw [hr] at hruns
      exact Or.inl ⟨by rw [hsplit, ← hu, hs], hruns⟩
    | cons c rest =>
      have hc : p c = true := by
        simpa [hr] using List.head_dropWhile_not (!p ·) (l := y :: u) (by simp [hr])
      rw [hr] at hsplit hruns
      exact Or.inr ⟨c, rest, hc, by rw [hsplit, ← hu, hs], hruns⟩

theorem runs_congr (h : ∀ x ∈ s, p x = q x) : runs p s = runs q s := by
  have hs : s.splitOnP p = s.splitOnP q := by
    induction s with
    | nil => rfl
    | cons x s ih =>
      rw [List.splitOnP_cons_eq_if_modifyHead, List.splitOnP_cons_eq_if_modifyHead,
        h x List.mem_cons_self, ih fun y hy => h y (List.mem_cons_of_mem x hy)]
  rw [runs, hs, runs]

/-- What does nothing on an empty piece does the same over the runs as over the pieces. -/
theorem flatMap_runs {β : Type*} (p : α → Bool) (s : List α) {f : List α → List β}
    (hf : f [] = []) : (runs p s).flatMap f = (s.splitOnP p).flatMap f := by
  rw [runs]
  induction s.splitOnP p with
  | nil => rfl
  | cons t ts ih =>
    cases t with
    | nil => simp [hf, ih]
    | cons x t => simp [ih]

/-- There is no run in a text of delimiters. -/
theorem runs_eq_nil : runs p s = [] ↔ ∀ x ∈ s, p x = true := by
  induction s with
  | nil => simp
  | cons c s ih =>
    cases hc : p c with
    | true => simp [runs_cons hc, ih, hc]
    | false => simp [runs_cons_of_not hc, hc]

/-! ## Pieces -/

/-- A piece is of the elements of the text, without a delimiter. -/
theorem mem_of_mem_splitOnP {x : α} (ht : t ∈ s.splitOnP p) (hx : x ∈ t) :
    x ∈ s ∧ p x = false := by
  induction s generalizing t with
  | nil => simp_all
  | cons c s ih =>
    obtain ⟨t₀, ts, hts⟩ := List.exists_cons_of_ne_nil (List.splitOnP_ne_nil p s)
    rw [List.splitOnP_cons_eq_if_modifyHead, hts] at ht
    rw [hts] at ih
    split_ifs at ht with hc
    · rcases List.mem_cons.1 ht with rfl | ht
      · cases hx
      · exact (ih ht hx).imp_left (List.mem_cons_of_mem c)
    · rcases List.mem_cons.1 ht with rfl | ht
      · rcases List.mem_cons.1 hx with rfl | hx
        · exact ⟨List.mem_cons_self, by simpa using hc⟩
        · exact (ih List.mem_cons_self hx).imp_left (List.mem_cons_of_mem c)
      · exact (ih (List.mem_cons_of_mem t₀ ht) hx).imp_left (List.mem_cons_of_mem c)

/-- A run is a piece. -/
theorem mem_of_mem_runs {x : α} (ht : t ∈ runs p s) (hx : x ∈ t) : x ∈ s ∧ p x = false :=
  mem_of_mem_splitOnP (List.mem_filter.1 ht).1 hx

/-- What has no delimiter is appended to the last piece. -/
theorem splitOnP_append (s : List α) (ht : ∀ x ∈ t, p x = false) :
    ∃ ps last, s.splitOnP p = ps ++ [last] ∧ (s ++ t).splitOnP p = ps ++ [last ++ t] := by
  induction s with
  | nil => exact ⟨[], [], rfl, List.splitOnP_eq_singleton ht⟩
  | cons c s ih =>
    obtain ⟨ps, last, hs, hst⟩ := ih
    rw [List.cons_append, List.splitOnP_cons_eq_if_modifyHead,
      List.splitOnP_cons_eq_if_modifyHead, hs, hst]
    split_ifs
    · exact ⟨[] :: ps, last, rfl, rfl⟩
    · cases ps with
      | nil => exact ⟨[], c :: last, rfl, rfl⟩
      | cons p₀ ps => exact ⟨(c :: p₀) :: ps, last, rfl, rfl⟩

/-- There is one piece more than delimiters. -/
theorem length_splitOnP (p : α → Bool) (s : List α) :
    (s.splitOnP p).length = s.countP p + 1 := by
  induction s with
  | nil => rfl
  | cons c s ih =>
    rw [List.splitOnP_cons_eq_if_modifyHead, List.countP_cons]
    split_ifs <;> simp [ih]

/-! ## Joined texts -/

theorem mem_of_mem_intercalate {sep : List α} {ts : List (List α)} {x : α}
    (h : x ∈ sep.intercalate ts) : x ∈ sep ∨ ∃ t ∈ ts, x ∈ t := by
  induction ts with
  | nil => cases h
  | cons t ts ih =>
    cases ts with
    | nil =>
      rw [List.intercalate_singleton] at h
      exact Or.inr ⟨t, List.mem_cons_self, h⟩
    | cons t' ts =>
      rw [List.intercalate_cons_cons, List.append_assoc, List.mem_append, List.mem_append] at h
      rcases h with h | h | h
      · exact Or.inr ⟨t, List.mem_cons_self, h⟩
      · exact Or.inl h
      · exact (ih h).imp_right fun ⟨y, hy, hx⟩ => ⟨y, List.mem_cons_of_mem t hy, hx⟩

/-- Texts joined around a delimiter are cut into these texts again, each with some text of `U`
before it and of `V` behind it, which `f` ignores. -/
theorem map_runs_intercalate {β γ : Type*} (print : γ → List α) (f : List α → β) (g : γ → β)
    (U V : List α → Prop) (a : List α) (c : α) (b : List α) {u v : List α} {ts : List γ}
    (hc : p c = true) (ha : V a) (hb : U b)
    (hts : ∀ t ∈ ts, ∀ u v, U u → V v → (∀ x ∈ u ++ (print t ++ v), p x = false) ∧
      u ++ (print t ++ v) ≠ [] ∧ f (u ++ (print t ++ v)) = g t)
    (hne : ts ≠ []) (hu : U u) (hv : V v) :
    (runs p (u ++ ((a ++ c :: b).intercalate (ts.map print) ++ v))).map f = ts.map g := by
  induction ts generalizing u with
  | nil => exact absurd rfl hne
  | cons t ts ih =>
    obtain ⟨ht, hts⟩ := List.forall_mem_cons.1 hts
    cases ts with
    | nil =>
      obtain ⟨hp, hne, hf⟩ := ht u v hu hv
      rw [List.map_singleton, List.intercalate_singleton, runs_eq_singleton hne hp,
        List.map_singleton, List.map_singleton, hf]
    | cons t' ts =>
      obtain ⟨hp, hne, hf⟩ := ht u a hu ha
      have hjoin : u ++ ((a ++ c :: b).intercalate ((t :: t' :: ts).map print) ++ v) =
          (u ++ (print t ++ a)) ++
            c :: (b ++ ((a ++ c :: b).intercalate ((t' :: ts).map print) ++ v)) := by
        rw [List.map_cons, List.map_cons, List.intercalate_cons_cons, ← List.map_cons]
        simp only [List.append_assoc, List.cons_append]
      rw [hjoin, runs_append_cons hc, runs_eq_singleton hne hp, List.map_append,
        ih hts (List.cons_ne_nil t' ts) hb, List.map_singleton, hf, List.singleton_append,
        ← List.map_cons]

/-! ## Reading tokens -/

/-- A token is the first run, and the other runs are those of the rest. -/
theorem next_eq_some {rest : List α} (h : next p s = some (t, rest)) :
    runs p s = t :: runs p rest ∧ rest.length < s.length := by
  rw [next] at h
  have hle := (List.dropWhile_suffix (l := s) p).length_le
  rw [← runs_dropWhile]
  cases hd : s.dropWhile p with
  | nil => rw [hd] at h; cases h
  | cons c s' =>
    rw [hd] at h hle
    obtain ⟨rfl, rfl⟩ := Prod.mk.inj (Option.some.inj h)
    have hc : p c = false := by
      simpa [hd] using List.head_dropWhile_not p (l := s) (by simp [hd])
    refine ⟨runs_cons_of_not hc s', ?_⟩
    rw [List.dropWhile_cons_of_pos (by simp [hc]), List.length_drop]
    have hlen := (List.dropWhile_suffix (l := s') (!p ·)).length_le
    rw [List.length_cons] at hle
    omega

theorem next_eq_none (h : next p s = none) : runs p s = [] := by
  rw [← runs_dropWhile]
  rw [next] at h
  cases hd : s.dropWhile p with
  | nil => rfl
  | cons c s => rw [hd] at h; cases h

/-- The tokens are the runs. -/
theorem all_eq_runs {fuel : ℕ} (hf : s.length ≤ fuel) : all p fuel s = runs p s := by
  induction fuel generalizing s with
  | zero => rw [List.length_eq_zero_iff.1 (Nat.le_zero.1 hf)]; rfl
  | succ fuel ih =>
    rw [all]
    cases hn : next p s with
    | none => exact (next_eq_none hn).symm
    | some tr =>
      obtain ⟨hr, hlt⟩ := next_eq_some hn
      rw [hr, ← ih (by omega : tr.2.length ≤ fuel)]

end Tokens
