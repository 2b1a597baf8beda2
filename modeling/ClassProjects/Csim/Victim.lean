import ClassProjects.Csim.Lru
import ClassProjects.Lib.Machine

/-!
# The victim line

`find_lru_line` assigns its result only if some counter is above 0. Here a set is followed
together with the lines that were accessed, the last one first (`Tracks`) : the counter of a
line is the number of accesses since the last one to it, and the valid lines are those that
were accessed.

So in a full set of two lines or more a counter is above 0, and the largest one is that of
the line accessed longest ago. The one line of a direct-mapped set was accessed just now :
its counter is 0 and there is no victim (`victims_iff`).
-/

namespace ClassProjects

namespace Csim

variable {max : ℕ∞} {E n r i j m : ℕ} {lines lines' : List Line} {l : Line} {tag : UInt64}
  {op : Op} {hist : List ℕ}

/-! ## Runs of a set -/

/-- `memory_op` on a set and the lines that were accessed, the last one first. -/
def setStep (max : ℕ∞) (s : List Line × List ℕ) (a : UInt64 × Op) :
    Option ((List Line × List ℕ) × List ℕ) := do
  let (_, i, _) ← selectLine s.1 a.1
  let (r, lines) ← memoryOp max s.1 a.1 a.2
  some ((lines, i :: s.2), [r])

/-- `memory_op` calls `find_lru_line`. -/
def Evicts (lines : List Line) (tag : UInt64) : Prop :=
  findLine lines tag = none ∧ findEmptyLine lines = none

/-- Some counter is above 0, and the line that `find_lru_line` returns was assigned, is one
of the set and was accessed longest ago. -/
def HasVictim (lines : List Line) (hist : List ℕ) : Prop :=
  (∃ l ∈ lines, 0 < l.usage) ∧
    ∃ i, findLruLine lines = some i ∧ i < lines.length ∧ i ∈ hist ∧
      ∀ j < lines.length, hist.idxOf j ≤ hist.idxOf i

/-! ## What one call does -/

/-- The scan stops at a largest counter above the bound. -/
theorem lruScan_spec (h : ∃ l ∈ lines, m < l.usage) (i : ℕ) (r : Option ℕ) :
    ∃ k l, lruScan i m r lines = some (i + k) ∧ lines[k]? = some l ∧ m < l.usage ∧
      ∀ l' ∈ lines, l'.usage ≤ l.usage := by
  induction lines generalizing i m r with
  | nil => simp at h
  | cons x lines ih =>
    -- a line found behind `x` is the result for the whole list
    have hcons : ∀ m' r', m ≤ m' → x.usage ≤ m' → (∃ l ∈ lines, m' < l.usage) →
        ∃ k l, lruScan (i + 1) m' r' lines = some (i + k) ∧ (x :: lines)[k]? = some l ∧
          m < l.usage ∧ ∀ l' ∈ x :: lines, l'.usage ≤ l.usage := by
      intro m' r' hm hx htail
      obtain ⟨k, l, hk, hl, hlt, hmax⟩ := ih htail (i + 1) r'
      refine ⟨k + 1, l, by rw [hk, Nat.add_right_comm, Nat.add_assoc], hl, by omega, ?_⟩
      intro l' hl'
      rcases List.mem_cons.1 hl' with rfl | hl'
      · omega
      · exact hmax l' hl'
    rw [lruScan]
    split_ifs with hx
    · by_cases htail : ∃ l ∈ lines, x.usage < l.usage
      · exact hcons x.usage (some i) hx.le (le_refl _) htail
      · push Not at htail
        refine ⟨0, x, lruScan_of_le htail, rfl, hx, fun l' hl' => ?_⟩
        rcases List.mem_cons.1 hl' with rfl | hl'
        · exact le_refl _
        · exact htail l' hl'
    · refine hcons m r (le_refl m) (not_lt.1 hx) ?_
      obtain ⟨l, hl, hlt⟩ := h
      rcases List.mem_cons.1 hl with rfl | hl
      · exact absurd hlt hx
      · exact ⟨l, hl, hlt⟩

theorem findLruLine_spec (h : ∃ l ∈ lines, 0 < l.usage) :
    ∃ k l, findLruLine lines = some k ∧ lines[k]? = some l ∧
      ∀ l' ∈ lines, l'.usage ≤ l.usage := by
  obtain ⟨k, l, hk, hl, -, hmax⟩ := lruScan_spec h 0 none
  exact ⟨k, l, by rw [findLruLine, hk, Nat.zero_add], hl, hmax⟩

/-- A result of the scan is a line of the set with a counter above the bound. -/
theorem exists_of_findLruLine (h : findLruLine lines = some i) : ∃ l ∈ lines, 0 < l.usage := by
  by_contra hall
  push Not at hall
  rw [findLruLine, lruScan_of_le hall] at h
  cases h

theorem getElem?_of_findIdx? {p : Line → Bool} (h : lines.findIdx? p = some i) :
    ∃ l, lines[i]? = some l ∧ p l = true := by
  obtain ⟨hi, hp, -⟩ := List.findIdx?_eq_some_iff_getElem.1 h
  exact ⟨lines[i], List.getElem?_eq_getElem hi, hp⟩

theorem modify_eq_self {f : Line → Line} (h : lines[i]? = some l) (hf : f l = l) :
    lines.modify i f = lines := by
  refine List.ext_getElem? fun j => ?_
  rw [List.getElem?_modify]
  split_ifs with hij
  · subst hij
    rw [h]
    exact congrArg some hf
  · simp

/-- The chosen line becomes valid and holds the tag. -/
theorem selectLine_spec (h : selectLine lines tag = some (r, i, lines')) :
    i < lines.length ∧ lines' = lines.modify i fun l => { l with valid := true, tag := tag } := by
  have hlt : ∀ l, lines[i]? = some l → i < lines.length := fun l hl =>
    (List.getElem?_eq_some_iff.1 hl).1
  unfold selectLine at h
  cases hfind : findLine lines tag with
  | some k =>
    simp only [hfind, Option.some.injEq, Prod.mk.injEq] at h
    obtain ⟨-, rfl, rfl⟩ := h
    obtain ⟨l, hl, hp⟩ := getElem?_of_findIdx? hfind
    obtain ⟨hv, rfl⟩ : l.valid = true ∧ l.tag = tag := by simpa using hp
    exact ⟨hlt l hl, (modify_eq_self hl (by rw [← hv])).symm⟩
  | none =>
    cases hempty : findEmptyLine lines with
    | some k =>
      simp only [hfind, hempty, Option.some.injEq, Prod.mk.injEq] at h
      obtain ⟨-, rfl, rfl⟩ := h
      obtain ⟨l, hl, -⟩ := getElem?_of_findIdx? hempty
      exact ⟨hlt l hl, rfl⟩
    | none =>
      simp only [hfind, hempty, Option.map_eq_some_iff, Prod.mk.injEq] at h
      obtain ⟨k, hk, -, rfl, rfl⟩ := h
      obtain ⟨k', l, hk', hl, -⟩ := findLruLine_spec (exists_of_findLruLine hk)
      obtain rfl := Option.some.inj (hk.symm.trans hk')
      refine ⟨hlt l hl, List.ext_getElem? fun j => ?_⟩
      -- every line of a full set is valid already
      have hall := findEmptyLine_eq_none.1 hempty
      rw [List.getElem?_modify, List.getElem?_modify]
      cases hj : lines[j]? with
      | none => rfl
      | some x =>
        have hv := hall x (List.mem_of_getElem? hj)
        split_ifs
        · simp [hv]
        · rfl

/-- The counters go up unless one is at the largest `int`. -/
theorem mapM_addInt_eq_some (h : (lines.mapM fun l => (addInt max l.usage 1).map fun u =>
    { l with usage := u }) = some lines') : ∀ l ∈ lines, ((l.usage + 1 : ℕ) : ℕ∞) ≤ max := by
  induction lines generalizing lines' with
  | nil => exact fun l hl => absurd hl List.not_mem_nil
  | cons x lines ih =>
    rw [List.mapM_cons] at h
    obtain ⟨y, hy, h⟩ := Option.bind_eq_some_iff.1 h
    obtain ⟨ys, hys, -⟩ := Option.bind_eq_some_iff.1 h
    obtain ⟨u, hu, -⟩ := Option.map_eq_some_iff.1 hy
    intro l hl
    rcases List.mem_cons.1 hl with rfl | hl
    · rw [addInt] at hu
      exact (Option.ite_none_right_eq_some.1 hu).1
    · exact ih hys l hl

theorem updateUsage_spec : updateUsage max i lines = some lines' ↔
    (∀ l ∈ lines, ((l.usage + 1 : ℕ) : ℕ∞) ≤ max) ∧
      (lines.map Line.older).modify i (fun l => { l with usage := 0 }) = lines' := by
  constructor
  · intro h
    obtain ⟨ys, hys, rfl⟩ := Option.map_eq_some_iff.1 h
    have hmax := mapM_addInt_eq_some hys
    obtain rfl := Option.some.inj ((mapM_addInt hmax).symm.trans hys)
    exact ⟨hmax, rfl⟩
  · rintro ⟨hmax, rfl⟩
    rw [updateUsage, mapM_addInt hmax, Option.map_some]

/-- The set after an access to line `i`. -/
def touch (lines : List Line) (tag : UInt64) (i : ℕ) : List Line :=
  ((lines.modify i fun l => { l with valid := true, tag := tag }).map Line.older).modify i
    fun l => { l with usage := 0 }

theorem getElem?_touch (tag : UInt64) (i j : ℕ) : (touch lines tag i)[j]? =
    lines[j]?.map fun l => if i = j then ⟨true, tag, 0⟩ else l.older := by
  rw [touch, List.getElem?_modify, List.getElem?_map, List.getElem?_modify]
  cases lines[j]? with
  | none => rfl
  | some l => split_ifs <;> rfl

theorem map_usage_modify {f : Line → Line} (hf : ∀ l, (f l).usage = l.usage) :
    (lines.modify i f).map Line.usage = lines.map Line.usage := by
  refine List.ext_getElem? fun j => ?_
  rw [List.getElem?_map, List.getElem?_map, List.getElem?_modify]
  cases lines[j]? with
  | none => rfl
  | some l => split_ifs <;> simp [hf]

/-- A call succeeds if it finds a line and no counter is at the largest `int`, and then it
touches that line. -/
theorem setStep_spec {s : List Line × List ℕ} :
    (∃ o, setStep max (lines, hist) (tag, op) = some (s, o)) ↔
      (∀ l ∈ lines, ((l.usage + 1 : ℕ) : ℕ∞) ≤ max) ∧
      ∃ r i lines', selectLine lines tag = some (r, i, lines') ∧
        s = (touch lines tag i, i :: hist) := by
  have hbound : ∀ {r i lines'}, selectLine lines tag = some (r, i, lines') →
      ((∀ l ∈ lines', ((l.usage + 1 : ℕ) : ℕ∞) ≤ max) ↔
        ∀ l ∈ lines, ((l.usage + 1 : ℕ) : ℕ∞) ≤ max) := by
    intro r i lines' hsel
    have hmap : lines'.map Line.usage = lines.map Line.usage := by
      rw [(selectLine_spec hsel).2]
      exact map_usage_modify fun _ => rfl
    have hall : ∀ ls : List Line, (∀ l ∈ ls, ((l.usage + 1 : ℕ) : ℕ∞) ≤ max) ↔
        ∀ u ∈ ls.map Line.usage, ((u + 1 : ℕ) : ℕ∞) ≤ max := by simp
    rw [hall, hmap, ← hall]
  constructor
  · rintro ⟨o, h⟩
    obtain ⟨⟨r, i, lines'⟩, hsel, h⟩ := Option.bind_eq_some_iff.1 h
    obtain ⟨⟨r', after⟩, hop, h⟩ := Option.bind_eq_some_iff.1 h
    rw [memoryOp, hsel, Option.bind_eq_bind, Option.bind_some] at hop
    obtain ⟨lines'', hupd, hop⟩ := Option.bind_eq_some_iff.1 hop
    obtain ⟨hmax, htouch⟩ := updateUsage_spec.1 hupd
    simp only [Option.some.injEq, Prod.mk.injEq] at h hop
    obtain ⟨rfl, -⟩ := h
    refine ⟨(hbound hsel).1 hmax, r, i, lines', hsel, ?_⟩
    rw [← hop.2, ← htouch, (selectLine_spec hsel).2, touch]
  · rintro ⟨hmax, r, i, lines', hsel, rfl⟩
    have hupd : updateUsage max i lines' = some (touch lines tag i) := by
      rw [updateUsage_spec, touch, (selectLine_spec hsel).2]
      exact ⟨(selectLine_spec hsel).2 ▸ (hbound hsel).2 hmax, rfl⟩
    refine ⟨[if op = .M then r + 3 else r], ?_⟩
    rw [setStep, memoryOp, hsel]
    simp only [Option.bind_eq_bind, Option.bind_some, hupd]

/-! ## The counters of a run -/

/-- The counters count the accesses since a line's last one, and the valid lines are the
accessed ones. -/
structure Tracks (E : ℕ) (lines : List Line) (hist : List ℕ) : Prop where
  length : lines.length = E
  bound : ∀ i ∈ hist, i < E
  usage : ∀ j l, lines[j]? = some l → l.usage = hist.idxOf j
  valid : ∀ j l, lines[j]? = some l → (l.valid = true ↔ j ∈ hist)

theorem tracks_create (E : ℕ) : Tracks E (setCreate E) [] := by
  have hline : ∀ (j : ℕ) (l : Line), (setCreate E)[j]? = some l → l = ⟨false, 0, 0⟩ :=
    fun _ _ hl => List.eq_of_mem_replicate (List.mem_of_getElem? hl)
  refine ⟨List.length_replicate, fun i hi => absurd hi List.not_mem_nil, fun j l hl => ?_,
    fun j l hl => ?_⟩
  · rw [hline j l hl, List.idxOf_nil]
  · rw [hline j l hl]
    simp

theorem Tracks.touch (h : Tracks E lines hist) (hi : i < E) (tag : UInt64) :
    Tracks E (touch lines tag i) (i :: hist) := by
  refine ⟨by simp [Csim.touch, h.length], ?_, ?_, ?_⟩
  · intro k hk
    rcases List.mem_cons.1 hk with rfl | hk
    · exact hi
    · exact h.bound k hk
  · intro j l hl
    rw [getElem?_touch] at hl
    obtain ⟨x, hx, rfl⟩ := Option.map_eq_some_iff.1 hl
    by_cases hij : i = j
    · subst hij
      rw [if_pos rfl, List.idxOf_cons_self]
    · rw [if_neg hij, List.idxOf_cons_ne _ hij, ← h.usage j x hx]
      rfl
  · intro j l hl
    rw [getElem?_touch] at hl
    obtain ⟨x, hx, rfl⟩ := Option.map_eq_some_iff.1 hl
    by_cases hij : i = j
    · subst hij
      simp
    · rw [if_neg hij, List.mem_cons, or_iff_right (Ne.symm hij), ← h.valid j x hx]
      rfl

theorem tracks_step (s : List Line × List ℕ) (a : UInt64 × Op) (s' : List Line × List ℕ)
    (o : List ℕ) (h : Tracks E s.1 s.2) (hs : setStep max s a = some (s', o)) :
    Tracks E s'.1 s'.2 := by
  obtain ⟨-, r, i, lines', hsel, rfl⟩ := setStep_spec.1 ⟨o, hs⟩
  have hi := (selectLine_spec hsel).1
  rw [h.length] at hi
  exact h.touch hi a.1

/-! ## Victims -/

/-- In a full set of two lines or more, the line accessed longest ago is found. -/
theorem Tracks.hasVictim (h : Tracks E lines hist) (hE : 2 ≤ E)
    (hempty : findEmptyLine lines = none) : HasVictim lines hist := by
  have hline : ∀ j < E, ∃ l, lines[j]? = some l ∧ l.usage = hist.idxOf j ∧ j ∈ hist := by
    intro j hj
    have hl := List.getElem?_eq_getElem (h.length.symm ▸ hj)
    have hv := findEmptyLine_eq_none.1 hempty _ (List.mem_of_getElem? hl)
    exact ⟨_, hl, h.usage j _ hl, (h.valid j _ hl).1 hv⟩
  have hpos : ∃ l ∈ lines, 0 < l.usage := by
    obtain ⟨l₀, hl₀, hu₀, hm₀⟩ := hline 0 (by omega)
    obtain ⟨l₁, hl₁, hu₁, -⟩ := hline 1 (by omega)
    -- not both lines were accessed last
    have hne : hist.idxOf 0 ≠ hist.idxOf 1 := fun heq =>
      absurd ((List.idxOf_inj hm₀).1 heq) (by decide)
    by_cases h₀ : 0 < l₀.usage
    · exact ⟨l₀, List.mem_of_getElem? hl₀, h₀⟩
    · exact ⟨l₁, List.mem_of_getElem? hl₁, by omega⟩
  obtain ⟨k, l, hk, hl, hmax⟩ := findLruLine_spec hpos
  have hkE : k < E := h.length ▸ (List.getElem?_eq_some_iff.1 hl).1
  obtain ⟨l', hl', hu, hm⟩ := hline k hkE
  obtain rfl := Option.some.inj (hl.symm.trans hl')
  refine ⟨hpos, k, hk, h.length.symm ▸ hkE, hm, fun j hj => ?_⟩
  obtain ⟨x, hx, hxu, -⟩ := hline j (h.length ▸ hj)
  rw [← hxu, ← hu]
  exact hmax x (List.mem_of_getElem? hx)

/-- The one line of a full direct-mapped set was accessed last. -/
theorem Tracks.not_hasVictim (h : Tracks 1 lines hist) (hempty : findEmptyLine lines = none) :
    ¬HasVictim lines hist := by
  rintro ⟨⟨l, hl, hpos⟩, -⟩
  obtain ⟨j, hj⟩ := List.mem_iff_getElem?.1 hl
  have hj0 : j = 0 := by
    have hlt := (List.getElem?_eq_some_iff.1 hj).1
    rw [h.length] at hlt
    omega
  subst hj0
  have hmem : 0 ∈ hist := (h.valid 0 l hj).1 (findEmptyLine_eq_none.1 hempty l hl)
  have hidx : hist.idxOf 0 = 0 := by
    cases hist with
    | nil => cases hmem
    | cons i hist =>
      have hi := h.bound i List.mem_cons_self
      obtain rfl : i = 0 := by omega
      exact List.idxOf_cons_self
  rw [h.usage 0 l hj, hidx] at hpos
  exact lt_irrefl 0 hpos

/-- The call succeeds, and if it calls `find_lru_line` there is a victim. -/
def Chooses (max : ℕ∞) (s : List Line × List ℕ) (a : UInt64 × Op) : Prop :=
  (∃ s' o, setStep max s a = some (s', o)) ∧ (Evicts s.1 a.1 → HasVictim s.1 s.2)

/-- No counter is at the largest `int`, and if the tag and an empty line are missing, there
are two lines at least. -/
def CanChoose (max : ℕ∞) (s : List Line × List ℕ) (a : UInt64 × Op) : Prop :=
  (∀ l ∈ s.1, ((l.usage + 1 : ℕ) : ℕ∞) ≤ max) ∧ (Evicts s.1 a.1 → 2 ≤ s.1.length)

theorem chooses_iff (hE : 1 ≤ E) {s : List Line × List ℕ} (h : Tracks E s.1 s.2)
    (a : UInt64 × Op) : Chooses max s a ↔ CanChoose max s a := by
  obtain ⟨lines, hist⟩ := s
  obtain ⟨tag, op⟩ := a
  constructor
  · rintro ⟨⟨s', o, hs⟩, hvictim⟩
    refine ⟨(setStep_spec.1 ⟨o, hs⟩).1, fun hev => ?_⟩
    by_contra hlt
    have hone : E = 1 := by
      have hlen : lines.length = E := h.length
      simp only at hlt
      omega
    subst hone
    exact h.not_hasVictim hev.2 (hvictim hev)
  · rintro ⟨hmax, htwo⟩
    have hlen : lines.length = E := h.length
    have hvictim : Evicts lines tag → HasVictim lines hist := fun hev =>
      h.hasVictim (hlen ▸ htwo hev) hev.2
    refine ⟨?_, hvictim⟩
    obtain ⟨r, i, lines', hsel⟩ : ∃ r i lines', selectLine lines tag = some (r, i, lines') := by
      unfold selectLine
      cases hfind : findLine lines tag with
      | some k => exact ⟨0, k, lines, rfl⟩
      | none =>
        cases hempty : findEmptyLine lines with
        | some k => exact ⟨1, k, _, rfl⟩
        | none =>
          obtain ⟨-, k, hk, -⟩ := hvictim ⟨hfind, hempty⟩
          exact ⟨2, k, _, by rw [hk]; rfl⟩
    obtain ⟨o, hs⟩ := setStep_spec.2 ⟨hmax, r, i, lines', hsel, rfl⟩
    exact ⟨_, o, hs⟩

/-- With two lines or more, a set always has a victim until its calls are more than an
`int` counts. -/
theorem canChoose_of_two_lines (hE : 2 ≤ E) (calls : List (UInt64 × Op)) {s : List Line × List ℕ}
    (h : Tracks E s.1 s.2) (hlen : ((s.2.length + calls.length : ℕ) : ℕ∞) ≤ max) :
    Machine.AllSteps (setStep max) (CanChoose max) s calls := by
  induction calls generalizing s with
  | nil => trivial
  | cons a calls ih =>
    refine ⟨⟨fun l hl => ?_, fun _ => h.length.symm ▸ hE⟩, fun s' o hs => ?_⟩
    · obtain ⟨j, hj⟩ := List.mem_iff_getElem?.1 hl
      have hle : l.usage + 1 ≤ s.2.length + (a :: calls).length := by
        rw [h.usage j l hj, List.length_cons]
        have := List.idxOf_le_length (a := j) (l := s.2)
        omega
      exact le_trans (by exact_mod_cast hle) hlen
    · refine ih (tracks_step s a s' o h hs) (le_trans ?_ hlen)
      obtain ⟨-, r, i, lines', -, rfl⟩ := setStep_spec.1 ⟨o, hs⟩
      simp only [List.length_cons]
      exact_mod_cast (by omega : s.2.length + 1 + calls.length ≤ s.2.length + (calls.length + 1))

/-- Along every sequence of calls on a new set : the calls that call `find_lru_line` find a
line to evict, the one accessed longest ago, if and only if they never do so in a set with one
line and no counter overflows. -/
theorem victims_iff (max : ℕ∞) (hE : 1 ≤ E) (calls : List (UInt64 × Op)) :
    Machine.AllSteps (setStep max) (Chooses max) (setCreate E, []) calls ↔
      Machine.AllSteps (setStep max) (CanChoose max) (setCreate E, []) calls := by
  have hinit : Tracks E (setCreate E, ([] : List ℕ)).1 (setCreate E, ([] : List ℕ)).2 :=
    tracks_create E
  constructor
  · exact Machine.AllSteps.imp (fun s a h => (chooses_iff hE h a).1)
      (fun s a s' o h _ hs => tracks_step s a s' o h hs) hinit
  · exact Machine.AllSteps.imp (fun s a h => (chooses_iff hE h a).2)
      (fun s a s' o h _ hs => tracks_step s a s' o h hs) hinit

theorem victims_iff_two_lines :
    Machine.AllSteps (setStep intMax) (Chooses intMax) (setCreate 2, [])
      [(1, .L), (2, .M), (3, .S)] :=
  (victims_iff intMax (by decide) _).2
    (canChoose_of_two_lines (by decide) _ (tracks_create 2) (by decide))

/-- Two tags compete for the line of a direct-mapped set. -/
theorem no_victim : ∃ lines hist o, setStep intMax (setCreate 1, []) (1, .L) =
      some ((lines, hist), o) ∧
    Evicts lines 2 ∧ (∀ l ∈ lines, l.usage = 0) ∧ findLruLine lines = none ∧
    ¬Machine.AllSteps (setStep intMax) (Chooses intMax) (setCreate 1, []) [(1, .L), (2, .L)] := by
  have hfirst : setStep intMax (setCreate 1, []) (1, .L) = some (([⟨true, 1, 0⟩], [0]), [1]) := by
    decide
  refine ⟨_, _, _, hfirst, ⟨by decide, by decide⟩, by decide, by decide, ?_⟩
  rintro ⟨-, hrest⟩
  obtain ⟨⟨-, hvictim⟩, -⟩ := hrest _ _ hfirst
  obtain ⟨-, i, hi, -⟩ := hvictim ⟨by decide, by decide⟩
  have hnone : findLruLine [⟨true, 1, 0⟩] = none := by decide
  exact absurd (hnone.symm.trans hi) nofun

end Csim

end ClassProjects
