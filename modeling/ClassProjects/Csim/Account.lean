import ClassProjects.Csim.Trace
import ClassProjects.Csim.Victim

/-!
# The books of the cache

What holds of every cache that the simulator reaches, whatever the trace file is, however
many lines a set has, and whether or not a victim is the right one. No two valid lines of a
set hold the same tag, and the valid lines are the first ones. Every data access is a hit or
a miss, and every miss either fills a line or evicts one, so the lines in use are the misses
that were no evictions (`Accounted`).
-/

namespace ClassProjects

namespace Csim

variable {max : ℕ∞} {sim sim' : Sim}
  {lines lines' : List Line} {tag : UInt64} {op : Op} {a : Access} {r i n S E : ℕ}

/-- The valid lines hold distinct tags, and stand in front of the others. -/
structure Filled (lines : List Line) : Prop where
  distinct : ∀ (i j : ℕ) (l l' : Line), lines[i]? = some l → lines[j]? = some l' →
    l.valid = true → l'.valid = true → l.tag = l'.tag → i = j
  first : ∀ (i j : ℕ) (l l' : Line), lines[i]? = some l → lines[j]? = some l' →
    l.valid = true → j < i → l'.valid = true

/-- The lines in use. -/
def inUse (sets : List (List Line)) : ℕ :=
  (sets.map fun lines => lines.countP Line.valid).sum

/-- How often an operation accesses data. -/
def accesses : Op → ℕ
  | .I => 0
  | .L => 1
  | .S => 1
  | .M => 2

/-- The cache and the counters after `n` data accesses. -/
structure Accounted (sim : Sim) (n : ℕ) : Prop where
  filled : ∀ lines ∈ sim.sets, Filled lines
  total : sim.u + sim.v = n
  held : sim.v = sim.w + inUse sim.sets

/-! ## One set -/

/-- What line is chosen : the one that holds the tag, the first that is not valid, or one of
a full set. -/
theorem selectLine_cases (h : selectLine lines tag = some (r, i, lines')) :
    (∃ l, lines[i]? = some l ∧ l.valid = true ∧ l.tag = tag ∧ r = 0) ∨
      ((∀ l ∈ lines, l.valid = true → l.tag ≠ tag) ∧
        (∀ j l, lines[j]? = some l → j < i → l.valid = true) ∧
        ∃ l, lines[i]? = some l ∧ r = if l.valid then 2 else 1) := by
  have hout : findLine lines tag = none → ∀ l ∈ lines, l.valid = true → l.tag ≠ tag := by
    intro hnone l hl hv ht
    have := List.findIdx?_eq_none_iff.1 hnone l hl
    simp [hv, ht] at this
  have hlt := (selectLine_spec h).1
  unfold selectLine at h
  cases hfind : findLine lines tag with
  | some k =>
    simp only [hfind, Option.some.injEq, Prod.mk.injEq] at h
    obtain ⟨rfl, rfl, -⟩ := h
    obtain ⟨l, hl, hp⟩ := getElem?_of_findIdx? hfind
    obtain ⟨hv, ht⟩ : l.valid = true ∧ l.tag = tag := by simpa using hp
    exact Or.inl ⟨l, hl, hv, ht, rfl⟩
  | none =>
    refine Or.inr ⟨hout hfind, ?_⟩
    cases hempty : findEmptyLine lines with
    | some k =>
      simp only [hfind, hempty, Option.some.injEq, Prod.mk.injEq] at h
      obtain ⟨rfl, rfl, -⟩ := h
      obtain ⟨hk, hp, hbefore⟩ := List.findIdx?_eq_some_iff_getElem.1 hempty
      refine ⟨fun j l hl hj => ?_, lines[k], List.getElem?_eq_getElem hk, ?_⟩
      · obtain ⟨hj', rfl⟩ := List.getElem?_eq_some_iff.1 hl
        simpa using hbefore j hj
      · rw [if_neg (by simpa using hp)]
    | none =>
      simp only [hfind, hempty, Option.map_eq_some_iff, Prod.mk.injEq] at h
      obtain ⟨k, -, rfl, rfl, -⟩ := h
      have hall := findEmptyLine_eq_none.1 hempty
      refine ⟨fun j l hl _ => hall l (List.mem_of_getElem? hl), lines[k],
        List.getElem?_eq_getElem hlt, ?_⟩
      rw [if_pos (hall _ (List.getElem_mem hlt))]

/-- A call that succeeds touches the line it chose. -/
theorem memoryOp_touch (h : memoryOp max lines tag op = some (r, lines')) :
    ∃ r₀ i chosen, selectLine lines tag = some (r₀, i, chosen) ∧ lines' = touch lines tag i ∧
      r = if op = .M then r₀ + 3 else r₀ := by
  obtain ⟨⟨r₀, i, chosen⟩, hsel, h⟩ := Option.bind_eq_some_iff.1 h
  obtain ⟨touched, hupd, h⟩ := Option.bind_eq_some_iff.1 h
  obtain ⟨-, rfl⟩ := updateUsage_spec.1 hupd
  obtain ⟨rfl, rfl⟩ := Prod.mk.inj (Option.some.inj h)
  exact ⟨r₀, i, chosen, hsel, by rw [touch, (selectLine_spec hsel).2], rfl⟩

theorem Filled.touch (hf : Filled lines) {chosen : List Line}
    (h : selectLine lines tag = some (r, i, chosen)) : Filled (touch lines tag i) := by
  have hother : ∀ j l, lines[j]? = some l → l.valid = true → l.tag = tag → j = i := by
    intro j l hl hv ht
    rcases selectLine_cases h with ⟨x, hx, hxv, hxt, -⟩ | ⟨hout, -⟩
    · exact hf.distinct j i l x hl hx hv hxv (ht.trans hxt.symm)
    · exact absurd ht (hout l (List.mem_of_getElem? hl) hv)
  have hbefore : ∀ j l, lines[j]? = some l → j < i → l.valid = true := by
    rcases selectLine_cases h with ⟨x, hx, hxv, -⟩ | ⟨-, hbefore, -⟩
    · exact fun j l hl hj => hf.first i j x l hx hl hxv hj
    · exact hbefore
  constructor
  · intro j k l l' hl hl' hv hv' ht
    rw [getElem?_touch] at hl hl'
    obtain ⟨x, hx, rfl⟩ := Option.map_eq_some_iff.1 hl
    obtain ⟨y, hy, rfl⟩ := Option.map_eq_some_iff.1 hl'
    by_cases hj : i = j <;> by_cases hk : i = k
    · exact hj.symm.trans hk
    · rw [if_pos hj, if_neg hk] at ht
      rw [if_neg hk] at hv'
      exact absurd (hother k y hy hv' ht.symm).symm hk
    · rw [if_neg hj, if_pos hk] at ht
      rw [if_neg hj] at hv
      exact absurd (hother j x hx hv ht).symm hj
    · rw [if_neg hj, if_neg hk] at ht
      rw [if_neg hj] at hv
      rw [if_neg hk] at hv'
      exact hf.distinct j k x y hx hy hv hv' ht
  · intro j k l l' hl hl' hv hlt
    rw [getElem?_touch] at hl hl'
    obtain ⟨x, hx, rfl⟩ := Option.map_eq_some_iff.1 hl
    obtain ⟨y, hy, rfl⟩ := Option.map_eq_some_iff.1 hl'
    by_cases hk : i = k
    · rw [if_pos hk]
    · rw [if_neg hk]
      by_cases hj : i = j
      · exact hbefore k y hy (hj ▸ hlt)
      · rw [if_neg hj] at hv
        exact hf.first j k x y hx hy hv hlt

theorem split_of_getElem? {α : Type*} {l : List α} {x : α} (h : l[i]? = some x) :
    ∃ b t, l = b ++ x :: t ∧ b.length = i := by
  obtain ⟨hi, rfl⟩ := List.getElem?_eq_some_iff.1 h
  refine ⟨l.take i, l.drop (i + 1), ?_, List.length_take_of_le hi.le⟩
  rw [List.getElem_cons_drop, List.take_append_drop]

/-- A touched line is in use. -/
theorem countP_touch {l : Line} (tag : UInt64) (hl : lines[i]? = some l) :
    (touch lines tag i).countP Line.valid =
      lines.countP Line.valid + if l.valid then 0 else 1 := by
  obtain ⟨b, t, rfl, rfl⟩ := split_of_getElem? hl
  have holder : Line.valid ∘ Line.older = Line.valid := rfl
  have hlen : b.length = (b.map Line.older).length := by simp
  rw [touch, modify_split, List.map_append, List.map_cons, hlen, modify_split]
  simp only [List.countP_append, List.countP_cons, List.countP_map, holder, Line.older]
  split_ifs <;> omega

/-- The result code tells a hit from a miss, and a filled line from an evicted one. -/
theorem memoryOp_spec (hf : Filled lines) (h : memoryOp max lines tag op = some (r, lines'))
    (hop : op ≠ .I) :
    Filled lines' ∧ (tally r).1 + (tally r).2.1 = accesses op ∧
      (tally r).2.1 + lines.countP Line.valid = (tally r).2.2 + lines'.countP Line.valid := by
  obtain ⟨r₀, i, chosen, hsel, rfl, rfl⟩ := memoryOp_touch h
  refine ⟨hf.touch hsel, ?_⟩
  rcases selectLine_cases hsel with ⟨l, hl, hv, -, rfl⟩ | ⟨-, -, l, hl, rfl⟩
  · rw [countP_touch tag hl, if_pos hv]
    cases op <;> simp [tally, accesses] at hop ⊢
  · rw [countP_touch tag hl]
    cases op <;> cases l.valid <;> simp [tally, accesses, Nat.add_comm] at hop ⊢

/-! ## A run -/

theorem filled_create (E : ℕ) : Filled (setCreate E) := by
  have hnot : ∀ (i : ℕ) (l : Line), (setCreate E)[i]? = some l → l.valid ≠ true := by
    intro i l hl
    rw [List.eq_of_mem_replicate (List.mem_of_getElem? hl)]
    decide
  exact ⟨fun i _ l _ hl _ hv _ _ => absurd hv (hnot i l hl),
    fun i _ l _ hl _ hv _ => absurd hv (hnot i l hl)⟩

theorem inUse_create (S E : ℕ) : inUse (cacheCreate S E) = 0 := by
  have hzero : (setCreate E).countP Line.valid = 0 := by
    simp [setCreate, List.countP_replicate]
  rw [inUse, cacheCreate, List.map_replicate, hzero]
  simp

theorem accounted_create (S E : ℕ) : Accounted ⟨cacheCreate S E, 0, 0, 0⟩ 0 where
  filled lines hl := by
    rw [List.eq_of_mem_replicate hl]
    exact filled_create E
  total := rfl
  held := by rw [inUse_create]

/-- One set changes. -/
theorem inUse_set {sets : List (List Line)} (h : sets[i]? = some lines) (lines' : List Line) :
    inUse (sets.set i lines') + lines.countP Line.valid =
      inUse sets + lines'.countP Line.valid := by
  obtain ⟨b, t, rfl, rfl⟩ := split_of_getElem? h
  rw [List.set_eq_modify, modify_split]
  simp only [inUse, List.map_append, List.map_cons, List.sum_append, List.sum_cons]
  omega

theorem addInt_eq {x y z : ℕ} (h : addInt max x y = some z) : z = x + y := by
  rw [addInt] at h
  exact (Option.some.inj (Option.ite_none_right_eq_some.1 h).2).symm

theorem Accounted.step (ha : Accounted sim n) (h : simStep max sim a = some sim') :
    Accounted sim' (n + accesses a.op) := by
  by_cases hI : a.op = .I
  · rw [simStep, if_pos hI] at h
    obtain rfl := Option.some.inj h
    rw [hI]
    exact ha
  · rw [simStep, if_neg hI] at h
    obtain ⟨lines, hset, h⟩ := Option.bind_eq_some_iff.1 h
    obtain ⟨⟨r, lines'⟩, hop, h⟩ := Option.bind_eq_some_iff.1 h
    obtain ⟨u, hu, h⟩ := Option.bind_eq_some_iff.1 h
    obtain ⟨v, hv, h⟩ := Option.bind_eq_some_iff.1 h
    obtain ⟨w, hw, h⟩ := Option.bind_eq_some_iff.1 h
    obtain rfl := Option.some.inj h
    obtain ⟨hf, htotal, hheld⟩ := memoryOp_spec (ha.filled lines (List.mem_of_getElem? hset)) hop hI
    have hsum := inUse_set hset lines'
    have htotal' := ha.total
    have hheld' := ha.held
    refine ⟨fun x hx => ?_, ?_, ?_⟩
    · rcases List.mem_or_eq_of_mem_set hx with hx | rfl
      · exact ha.filled x hx
      · exact hf
    · rw [addInt_eq hu, addInt_eq hv]
      dsimp only
      omega
    · rw [addInt_eq hv, addInt_eq hw]
      dsimp only
      omega

theorem Accounted.run (trace : List Access) (ha : Accounted sim n)
    (h : trace.foldlM (simStep max) sim = some sim') :
    Accounted sim' (n + (trace.map fun a => accesses a.op).sum) := by
  induction trace generalizing sim n with
  | nil =>
    obtain rfl := Option.some.inj h
    exact ha
  | cons a trace ih =>
    rw [List.foldlM_cons] at h
    obtain ⟨sim₁, hs, h⟩ := Option.bind_eq_some_iff.1 h
    rw [List.map_cons, List.sum_cons, ← Nat.add_assoc]
    exact ih (ha.step hs) h

/-- If the simulation of a file ends, whatever is in the file, the counters and the cache
agree with the accesses of the file. -/
theorem accounted_of_file (rule : IntRule) (max : ℕ∞) (cache : Geometry) (S E : ℕ) (tr : CStr)
    (h : simulateFile rule max cache ⟨cacheCreate S E, 0, 0, 0⟩ tr = some sim) :
    ∃ trace : List Access, fileAccesses rule cache tr = some trace ∧
      trace.foldlM (simStep max) ⟨cacheCreate S E, 0, 0, 0⟩ = some sim ∧
      Accounted sim (trace.map fun a => accesses a.op).sum := by
  rw [simulateFile, readTrace_eq] at h
  obtain ⟨trace, hfile, htrace⟩ := Option.bind_eq_some_iff.1 h
  refine ⟨trace, hfile, htrace, ?_⟩
  have hrun := (accounted_create S E).run trace htrace
  rwa [Nat.zero_add] at hrun

/-- A line that is no trace of `csim` is read too : the comma is missing, and the size is the
operation of the next line. -/
theorem accounted_of_file_torn :
    ∃ trace : List Access,
      fileAccesses .x86 (geometry 0 40) "L 10000000000\n4 20000000000".toList = some trace ∧
      trace.foldlM (simStep ⊤) ⟨cacheCreate 1 2, 0, 0, 0⟩ =
        some ⟨[[⟨true, 1, 1⟩, ⟨true, 2, 0⟩]], 0, 2, 0⟩ ∧
      Accounted ⟨[[⟨true, 1, 1⟩, ⟨true, 2, 0⟩]], 0, 2, 0⟩ (trace.map fun a => accesses a.op).sum :=
  accounted_of_file .x86 ⊤ (geometry 0 40) 1 2 "L 10000000000\n4 20000000000".toList
    ((readTrace_next (by rfl)).trans ((readTrace_next (by rfl)).trans
      (readTrace_end (by rfl))))

end Csim

end ClassProjects
