import ClassProjects.Lib.Machine
import Mathlib.Logic.Function.Basic

/-!
# Handlers that look before they enter a section

Handlers `ι` share a state `σ`. Each first looks at the state outside any lock and either
answers or remembers `r : ρ` ; then it enters a section that edits the state by what it
remembers. Looks and sections are atomic, and the handlers interleave freely (`step`).

`atomic` is a handler that looks and enters at once. If what each handler remembered is
what it would see just before its section (`Repeats`), a run does what the handlers do
one after the other, in the order they finish (`run_serial`).
-/

namespace TwoPhase

variable {ι σ ρ ω : Type*} [DecidableEq ι]

/-- What a look ends in : an answer, or what to remember for the section. -/
inductive Look (ω ρ : Type*)
  | answer (out : List ω)
  | enter (r : ρ)

/-- The shared state, what the handlers remember, and the handlers that have finished,
in order. -/
structure Conf (ι σ ρ : Type*) where
  shared : σ
  plans : ι → Option ρ
  finished : List ι

/-- No handler has looked. -/
def Conf.start (s : σ) : Conf ι σ ρ :=
  ⟨s, fun _ => none, []⟩

variable (look : ι → σ → Option (Look ω ρ)) (enter : ι → ρ → σ → Option (σ × List ω))

/-- The next step of a handler. One that has finished rests. -/
def step (c : Conf ι σ ρ) (i : ι) : Option (Conf ι σ ρ × List ω) :=
  if i ∈ c.finished then some (c, [])
  else
    match c.plans i with
    | none =>
      (look i c.shared).map fun
        | .answer out => ({ c with finished := c.finished ++ [i] }, out)
        | .enter r => ({ c with plans := Function.update c.plans i (some r) }, [])
    | some r =>
      (enter i r c.shared).map fun t =>
        ({ c with
            shared := t.1
            finished := c.finished ++ [i] }, t.2)

/-- A handler that looks and enters its section in one step. -/
def atomic (s : σ) (i : ι) : Option (σ × List ω) :=
  match look i s with
  | none => none
  | some (.answer out) => some (s, out)
  | some (.enter r) => enter i r s

/-- The handler would remember now what it remembered. -/
def Repeats (c : Conf ι σ ρ) (i : ι) : Prop :=
  i ∉ c.finished → ∀ r, c.plans i = some r → look i c.shared = some (.enter r)

/-! ## One step -/

/-- The ways a handler takes its next step. -/
inductive Acts (c : Conf ι σ ρ) (i : ι) : Conf ι σ ρ → List ω → Prop
  | rests (hf : i ∈ c.finished) : Acts c i c []
  | answers {out : List ω} (hf : i ∉ c.finished) (hp : c.plans i = none)
    (hl : look i c.shared = some (.answer out)) :
    Acts c i { c with finished := c.finished ++ [i] } out
  | looks {r : ρ} (hf : i ∉ c.finished) (hp : c.plans i = none)
    (hl : look i c.shared = some (.enter r)) :
    Acts c i { c with plans := Function.update c.plans i (some r) } []
  | enters {r : ρ} {s : σ} {out : List ω} (hf : i ∉ c.finished) (hp : c.plans i = some r)
    (he : enter i r c.shared = some (s, out)) :
    Acts c i
      { c with
        shared := s
        finished := c.finished ++ [i] } out

variable {look enter} {c c' : Conf ι σ ρ} {s s' : σ} {i : ι} {out : List ω} {sched : List ι}

theorem acts_of_step (h : step look enter c i = some (c', out)) : Acts look enter c i c' out := by
  rw [step] at h
  by_cases hf : i ∈ c.finished
  · obtain ⟨rfl, rfl⟩ : c = c' ∧ [] = out := by simpa [hf] using h
    exact .rests hf
  · rw [if_neg hf] at h
    cases hp : c.plans i with
    | none =>
      obtain ⟨l, hl, h⟩ := Option.map_eq_some_iff.1 (by simpa only [hp] using h)
      cases l with
      | answer out' =>
        obtain ⟨rfl, rfl⟩ := Prod.mk.inj h
        exact .answers hf hp hl
      | enter r =>
        obtain ⟨rfl, rfl⟩ := Prod.mk.inj h
        exact .looks hf hp hl
    | some r =>
      obtain ⟨t, ht, h⟩ := Option.map_eq_some_iff.1 (by simpa only [hp] using h)
      obtain ⟨rfl, rfl⟩ := Prod.mk.inj h
      exact .enters hf hp ht

theorem step_enters {r : ρ} (hf : i ∉ c.finished) (hp : c.plans i = some r) :
    step look enter c i = (enter i r c.shared).map fun t =>
      ({ c with
          shared := t.1
          finished := c.finished ++ [i] }, t.2) := by
  rw [step, if_neg hf, hp]

theorem step_looks (hf : i ∉ c.finished) (hp : c.plans i = none) :
    step look enter c i = (look i c.shared).map fun
      | .answer out => ({ c with finished := c.finished ++ [i] }, out)
      | .enter r => ({ c with plans := Function.update c.plans i (some r) }, []) := by
  rw [step, if_neg hf, hp]

theorem step_rests (hf : i ∈ c.finished) : step look enter c i = some (c, []) := by
  rw [step, if_pos hf]

/-- A step keeps an invariant `V` of the shared state and `P` of what the unfinished
handlers remember, if a look remembers only what satisfies `P`, and a section keeps `V`,
and `P` for every other handler. -/
theorem invariant_step {V : σ → Prop} {P : ι → ρ → σ → Prop} (hV : V c.shared)
    (hP : ∀ j r, j ∉ c.finished → c.plans j = some r → P j r c.shared)
    (hlook : ∀ r, look i c.shared = some (.enter r) → P i r c.shared)
    (henter : ∀ r s out, i ∉ c.finished → c.plans i = some r →
      enter i r c.shared = some (s, out) →
        V s ∧ ∀ j r', j ≠ i → P j r' c.shared → P j r' s)
    (h : step look enter c i = some (c', out)) :
    V c'.shared ∧ ∀ j r, j ∉ c'.finished → c'.plans j = some r → P j r c'.shared := by
  have hfin : ∀ {j : ι}, j ∉ c.finished ++ [i] → j ∉ c.finished := fun hj hmem =>
    hj (List.mem_append_left _ hmem)
  cases acts_of_step h with
  | rests => exact ⟨hV, hP⟩
  | answers => exact ⟨hV, fun j r hj => hP j r (hfin hj)⟩
  | @looks q hf hp hl =>
    refine ⟨hV, fun j r hj hjr => ?_⟩
    have hupd : Function.update c.plans i (some q) j = some r := hjr
    by_cases hji : j = i
    · subst hji
      rw [Function.update_self] at hupd
      obtain rfl := Option.some.inj hupd
      exact hlook q hl
    · rw [Function.update_of_ne hji] at hupd
      exact hP j r hj hupd
  | enters hf hp he =>
    obtain ⟨hV', hP'⟩ := henter _ _ _ hf hp he
    refine ⟨hV', fun j r hj hjr => hP' j r ?_ (hP j r (hfin hj) hjr)⟩
    rintro rfl
    exact hj (List.mem_append_right _ List.mem_cons_self)

/-! ## Serial runs -/

/-- A run in which every section meets what its handler would see just before it does what
the handlers do one after the other, in the order they finish. -/
theorem run_serial (hrep : Machine.AllSteps (step look enter) (Repeats look) c sched)
    (hr : Machine.run (step look enter) c sched = some (c', out)) :
    ∃ order, c'.finished = c.finished ++ order ∧
      Machine.run (atomic look enter) c.shared order = some (c'.shared, out) := by
  induction sched generalizing c out with
  | nil =>
    obtain ⟨rfl, rfl⟩ : c = c' ∧ [] = out := by simpa using hr
    exact ⟨[], by simp, rfl⟩
  | cons i sched ih =>
    obtain ⟨c₁, o₁, o₂, hs, hr', rfl⟩ := Machine.run_cons_eq_some.1 hr
    obtain ⟨order, hfin, hrun⟩ := ih (hrep.2 c₁ o₁ hs) hr'
    cases acts_of_step hs with
    | rests => exact ⟨order, hfin, hrun⟩
    | looks => exact ⟨order, hfin, hrun⟩
    | answers hf hp hl =>
      refine ⟨i :: order, by simpa using hfin, ?_⟩
      exact Machine.run_cons_eq_some.2 ⟨_, o₁, o₂, by rw [atomic, hl], hrun, rfl⟩
    | enters hf hp he =>
      refine ⟨i :: order, by simpa using hfin, ?_⟩
      exact Machine.run_cons_eq_some.2
        ⟨_, o₁, o₂, by rw [atomic, hrep.1 hf _ hp]; exact he, hrun, rfl⟩

/-- No handler finishes twice. -/
theorem nodup_finished (h : c.finished.Nodup)
    (hr : Machine.run (step look enter) c sched = some (c', out)) : c'.finished.Nodup := by
  have happend : ∀ {d : Conf ι σ ρ} {j : ι}, d.finished.Nodup → j ∉ d.finished →
      (d.finished ++ [j]).Nodup := by
    intro d j hd hj
    exact List.nodup_append.2 ⟨hd, by simp, fun a ha b hb hab => hj (by simp_all)⟩
  have hstep : ∀ (d : Conf ι σ ρ) (j : ι) (d' : Conf ι σ ρ) (o : List ω), d.finished.Nodup →
      step look enter d j = some (d', o) → d'.finished.Nodup := by
    intro d j d' o hd hs
    cases acts_of_step hs with
    | rests => exact hd
    | looks => exact hd
    | answers hf => exact happend hd hf
    | enters hf => exact happend hd hf
  exact Machine.run_invariant hstep h hr

/-- The steps a handler has before it. -/
def Conf.remaining (c : Conf ι σ ρ) (i : ι) : ℕ :=
  if i ∈ c.finished then 0 else if (c.plans i).isSome then 1 else 2

/-- A handler scheduled for the steps it has before it finishes. -/
theorem mem_finished_of_run (hc : c.remaining i ≤ sched.count i)
    (hr : Machine.run (step look enter) c sched = some (c', out)) : i ∈ c'.finished := by
  induction sched generalizing c out with
  | nil =>
    obtain ⟨rfl, -⟩ : c = c' ∧ [] = out := by simpa using hr
    by_contra hf
    simp only [Conf.remaining, if_neg hf, List.count_nil] at hc
    split_ifs at hc <;> omega
  | cons j sched ih =>
    obtain ⟨c₁, o₁, o₂, hs, hr', -⟩ := Machine.run_cons_eq_some.1 hr
    refine ih ?_ hr'
    rw [List.count_cons] at hc
    have hfin : ∀ (d : Conf ι σ ρ), d.finished = c.finished ++ [j] → d.plans = c.plans →
        d.remaining i ≤ sched.count i := by
      intro d hd hp
      by_cases hji : j = i
      · simp [Conf.remaining, hd, hji]
      · have hij : i ≠ j := fun h => hji h.symm
        simpa [Conf.remaining, hd, hp, hij, hji] using hc
    cases acts_of_step hs with
    | rests hf =>
      by_cases hji : j = i
      · subst hji
        simp [Conf.remaining, hf]
      · simpa [hji] using hc
    | answers => exact hfin _ rfl rfl
    | enters => exact hfin _ rfl rfl
    | looks hf hp =>
      by_cases hji : j = i
      · subst hji
        simp only [Conf.remaining, if_neg hf, hp, Function.update_self] at hc ⊢
        simpa using hc
      · have hij : i ≠ j := fun h => hji h.symm
        simpa [Conf.remaining, Function.update_of_ne hij, hji] using hc

/-- Once all have finished, nothing happens. -/
theorem eq_of_run_of_finished (hf : ∀ i, i ∈ c.finished)
    (hr : Machine.run (step look enter) c sched = some (c', out)) : c' = c := by
  have hstep : ∀ (d : Conf ι σ ρ) (j : ι) (d' : Conf ι σ ρ) (o : List ω), d = c →
      step look enter d j = some (d', o) → d' = c := by
    rintro d j d' o rfl hs
    rw [step_rests (hf j)] at hs
    exact (Prod.mk.inj (Option.some.inj hs)).1.symm
  exact Machine.run_invariant hstep rfl hr

/-- Until one has finished, every handler would remember what it remembered. -/
theorem look_of_finished_eq_nil
    (hr : Machine.run (step look enter) (.start s) sched = some (c, out)) (hf : c.finished = [])
    {r : ρ} (hp : c.plans i = some r) : look i c.shared = some (.enter r) := by
  have hstep : ∀ (d : Conf ι σ ρ) (j : ι) (d' : Conf ι σ ρ) (o : List ω),
      (d.finished = [] → ∀ i r, d.plans i = some r → look i d.shared = some (.enter r)) →
      step look enter d j = some (d', o) →
      d'.finished = [] → ∀ i r, d'.plans i = some r → look i d'.shared = some (.enter r) := by
    intro d j d' o hd hs hf' i r hp
    cases acts_of_step hs with
    | rests => exact hd hf' i r hp
    | answers => simp at hf'
    | enters => simp at hf'
    | @looks q hf hpj hl =>
      have hupd : Function.update d.plans j (some q) i = some r := hp
      by_cases hij : i = j
      · subst hij
        rw [Function.update_self] at hupd
        rw [← Option.some.inj hupd]
        exact hl
      · rw [Function.update_of_ne hij] at hupd
        exact hd hf' i r hupd
  exact Machine.run_invariant hstep (fun _ _ _ hp => by simp [Conf.start] at hp) hr hf i r hp

end TwoPhase
