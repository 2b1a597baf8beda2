import ClassProjects.Csim.Cache
import ClassProjects.Lib.Recency

/-!
# The cache simulator is least recently used

A set of the simulator keeps no order : every access counts all its lines up and resets the
accessed one. `Ordered` reads the order off the counters : the valid lines, sorted by
`usage`, have distinct counters, and their tags are the recency list. An access of the set
is an access of that list (`memoryOp_eq`). In a full set the line with the largest counter is
the last of the list, and with two lines at least that counter is positive, so
`find_lru_line` finds it.

`Reference` is the cache as it is meant, a recency list for each set, with `M` a load and a
store. The counters of `simulate` are those of the reference (`simulate_eq_reference`).
-/

namespace ClassProjects

namespace Csim

open Recency

variable {max : ℕ∞} {E n : ℕ} {lines : List Line} {tags : List UInt64} {tag : UInt64} {op : Op}

/-! ## The searches -/

/-- A found line splits the set at its index. -/
theorem split_of_findIdx? {α : Type*} {p : α → Bool} {l : List α} {i : ℕ}
    (h : l.findIdx? p = some i) :
    ∃ b x t, l = b ++ x :: t ∧ b.length = i ∧ p x = true ∧ ∀ y ∈ b, p y = false := by
  obtain ⟨hi, hp, hb⟩ := List.findIdx?_eq_some_iff_getElem.1 h
  refine ⟨l.take i, l[i], l.drop (i + 1), ?_, by simp; omega, hp, fun y hy => ?_⟩
  · rw [List.getElem_cons_drop, List.take_append_drop]
  · obtain ⟨j, hj, rfl⟩ := List.mem_iff_getElem.1 hy
    rw [List.getElem_take]
    simpa using hb j (by simpa using hj.trans_le (by simp))

theorem lruScan_of_le {i m : ℕ} {r : Option ℕ} (h : ∀ l ∈ lines, l.usage ≤ m) :
    lruScan i m r lines = r := by
  induction lines generalizing i with
  | nil => rfl
  | cons l lines ih =>
    have hl := h l List.mem_cons_self
    rw [lruScan, if_neg (by omega), ih fun l' hl' => h l' (List.mem_cons_of_mem _ hl')]

theorem lruScan_max {b t : List Line} {y : Line} {i m : ℕ} {r : Option ℕ} (hm : m < y.usage)
    (hb : ∀ l ∈ b, l.usage < y.usage) (ht : ∀ l ∈ t, l.usage < y.usage) :
    lruScan i m r (b ++ y :: t) = some (i + b.length) := by
  induction b generalizing i m r with
  | nil =>
    rw [List.nil_append, lruScan, if_pos hm, lruScan_of_le fun l hl => (ht l hl).le]
    rfl
  | cons l b ih =>
    have hl := hb l List.mem_cons_self
    have hb' : ∀ l ∈ b, l.usage < y.usage := fun l' hl' => hb l' (List.mem_cons_of_mem _ hl')
    have hlen : i + 1 + b.length = i + (l :: b).length := by
      simp only [List.length_cons]
      omega
    rw [List.cons_append, lruScan]
    split_ifs
    · rw [ih hl hb', hlen]
    · rw [ih hm hb', hlen]

/-- A line used longer ago than all others, and not just now, is the one to evict. -/
theorem findLruLine_max {b t : List Line} {y : Line} (hy : 0 < y.usage)
    (hb : ∀ l ∈ b, l.usage < y.usage) (ht : ∀ l ∈ t, l.usage < y.usage) :
    findLruLine (b ++ y :: t) = some b.length := by
  rw [findLruLine, lruScan_max hy hb ht, Nat.zero_add]

/-! ## Counting up -/

/-- A line after an access to another one. -/
def Line.older (l : Line) : Line :=
  { l with usage := l.usage + 1 }

theorem mapM_addInt (h : ∀ l ∈ lines, ((l.usage + 1 : ℕ) : ℕ∞) ≤ max) :
    (lines.mapM fun l => (addInt max l.usage 1).map fun u => { l with usage := u }) =
      some (lines.map Line.older) := by
  induction lines with
  | nil => rfl
  | cons l lines ih =>
    rw [List.mapM_cons, addInt, if_pos (h l List.mem_cons_self),
      ih fun l' hl' => h l' (List.mem_cons_of_mem _ hl')]
    rfl

theorem modify_split {α : Type*} {b t : List α} {x : α} {f : α → α} :
    (b ++ x :: t).modify b.length f = b ++ f x :: t := by
  induction b with
  | nil => rfl
  | cons y b ih => rw [List.cons_append, List.length_cons, List.modify_succ_cons, ih]; rfl

/-- The counters after an access to the line between `b` and `t`. -/
theorem updateUsage_eq {b t : List Line} {x : Line}
    (h : ∀ l ∈ b ++ x :: t, ((l.usage + 1 : ℕ) : ℕ∞) ≤ max) :
    updateUsage max b.length (b ++ x :: t) =
      some (b.map Line.older ++ { x with usage := 0 } :: t.map Line.older) := by
  have hlen : b.length = (b.map Line.older).length := by simp
  rw [updateUsage, mapM_addInt h, Option.map_some, List.map_append, List.map_cons, hlen,
    modify_split]
  rfl

/-! ## The order of a set -/

/-- The valid lines of a set, the most recently used first. -/
structure Ordered (lines : List Line) (tags : List UInt64) : Prop where
  nodup : tags.Nodup
  sorted : ∃ vs : List Line, vs.Perm (lines.filter Line.valid) ∧ vs.map Line.tag = tags ∧
    vs.Pairwise fun l l' => l.usage < l'.usage

theorem filter_older (l : List Line) :
    (l.map Line.older).filter Line.valid = (l.filter Line.valid).map Line.older := by
  rw [List.filter_map]
  rfl

/-- The line accessed becomes the first, and the order of the others stays. -/
theorem ordered_touch {b t rs : List Line} {x : Line} (hx : x.valid = true)
    (hn : (x.tag :: rs.map Line.tag).Nodup) (hrs : rs.Perm ((b ++ t).filter Line.valid))
    (hp : rs.Pairwise fun l l' => l.usage < l'.usage) :
    Ordered (b.map Line.older ++ { x with usage := 0 } :: t.map Line.older)
      (x.tag :: rs.map Line.tag) := by
  refine ⟨hn, { x with usage := 0 } :: rs.map Line.older, ?_, ?_, ?_⟩
  · rw [List.filter_append, List.filter_cons_of_pos (by exact hx), filter_older, filter_older]
    refine (List.Perm.cons _ ?_).trans List.perm_middle.symm
    rw [← List.map_append, ← List.filter_append]
    exact hrs.map _
  · simp [Line.older, Function.comp_def]
  · rw [List.pairwise_cons, List.pairwise_map]
    refine ⟨fun l hl => ?_, hp.imp fun hlt => by simpa [Line.older] using hlt⟩
    obtain ⟨l, -, rfl⟩ := List.mem_map.1 hl
    exact Nat.succ_pos _

/-- `selectLine` chooses a line `x` that holds the tag, and `rest` are the tags of the other
valid lines in order. -/
def Selects (lines : List Line) (tag : UInt64) (r : ℕ) (rest : List UInt64) : Prop :=
  ∃ (b : List Line) (x : Line) (t rs : List Line),
    selectLine lines tag = some (r, b.length, b ++ x :: t) ∧
    (b ++ x :: t).map Line.usage = lines.map Line.usage ∧ x.valid = true ∧ x.tag = tag ∧
    rs.Perm ((b ++ t).filter Line.valid) ∧ rs.Pairwise (fun l l' => l.usage < l'.usage) ∧
    rs.map Line.tag = rest

theorem Ordered.mem_tags (h : Ordered lines tags) :
    tag ∈ tags ↔ ∃ l ∈ lines, l.valid = true ∧ l.tag = tag := by
  obtain ⟨vs, hvs, rfl, -⟩ := h.sorted
  simp only [List.mem_map, hvs.mem_iff, List.mem_filter, and_assoc]

theorem findLine_eq_none (h : Ordered lines tags) (ht : tag ∉ tags) :
    findLine lines tag = none := by
  rw [findLine, List.findIdx?_eq_none_iff]
  intro l hl
  have := fun hv htag => ht (h.mem_tags.2 ⟨l, hl, hv, htag⟩)
  simpa using this

theorem selects_hit (h : Ordered lines tags) (ht : tag ∈ tags) :
    Selects lines tag 0 (tags.erase tag) := by
  obtain ⟨i, hi⟩ : ∃ i, findLine lines tag = some i := by
    rw [← Option.isSome_iff_exists, findLine, List.findIdx?_isSome, List.any_eq_true]
    obtain ⟨l, hl, hv, htag⟩ := h.mem_tags.1 ht
    exact ⟨l, hl, by simp [hv, htag]⟩
  obtain ⟨b, x, t, rfl, rfl, hx, -⟩ := split_of_findIdx? hi
  obtain ⟨hv, rfl⟩ : x.valid = true ∧ x.tag = tag := by simpa using hx
  obtain ⟨vs, hvs, rfl, hp⟩ := h.sorted
  rw [List.filter_append, List.filter_cons_of_pos hv] at hvs
  obtain ⟨va, vb, rfl⟩ := List.append_of_mem (hvs.mem_iff.2 (by simp : x ∈ _))
  refine ⟨b, x, t, va ++ vb, by rw [selectLine, hi], rfl, hv, rfl, ?_, ?_, ?_⟩
  · rw [List.filter_append]
    exact (List.perm_middle.symm.trans (hvs.trans List.perm_middle)).cons_inv
  · exact hp.sublist ((List.sublist_cons_self x vb).append_left va)
  · have hn := h.nodup
    rw [List.map_append, List.map_cons, List.nodup_middle, List.nodup_cons, List.mem_append] at hn
    rw [List.map_append, List.map_append, List.map_cons,
      List.erase_append_right _ fun hm => hn.1 (Or.inl hm), List.erase_cons_head]

theorem findEmptyLine_eq_none : findEmptyLine lines = none ↔ ∀ l ∈ lines, l.valid = true := by
  rw [findEmptyLine, List.findIdx?_eq_none_iff]
  simp

/-- As many tags as valid lines. -/
theorem Ordered.length_eq (h : Ordered lines tags) :
    tags.length = (lines.filter Line.valid).length := by
  obtain ⟨vs, hvs, rfl, -⟩ := h.sorted
  rw [List.length_map, hvs.length_eq]

theorem Ordered.length_le (h : Ordered lines tags) : tags.length ≤ lines.length := by
  rw [h.length_eq]
  exact List.length_filter_le _ _

theorem selects_miss (h : Ordered lines tags) (ht : tag ∉ tags)
    (hl : tags.length < lines.length) : Selects lines tag 1 tags := by
  obtain ⟨i, hi⟩ : ∃ i, findEmptyLine lines = some i := by
    rw [← Option.ne_none_iff_exists', ne_eq, findEmptyLine_eq_none]
    intro hall
    rw [h.length_eq, List.filter_eq_self.2 hall] at hl
    exact lt_irrefl _ hl
  have hsel : selectLine lines tag =
      some (1, i, lines.modify i fun l => { l with valid := true, tag := tag }) := by
    rw [selectLine, findLine_eq_none h ht, hi]
  obtain ⟨b, x, t, rfl, rfl, hx, -⟩ := split_of_findIdx? hi
  have hx : x.valid = false := by simpa using hx
  obtain ⟨vs, hvs, rfl, hp⟩ := h.sorted
  rw [modify_split] at hsel
  refine ⟨b, _, t, vs, hsel, by simp, rfl, rfl, ?_, hp, rfl⟩
  rwa [List.filter_append, List.filter_cons_of_neg (by simp [hx]), ← List.filter_append] at hvs

theorem selects_evict (h : Ordered lines tags) (ht : tag ∉ tags) (hE : 2 ≤ lines.length)
    (hl : tags.length = lines.length) : Selects lines tag 2 tags.dropLast := by
  have hall : ∀ l ∈ lines, l.valid = true := by
    rw [h.length_eq] at hl
    exact List.filter_eq_self.1 ((List.filter_sublist).eq_of_length hl)
  obtain ⟨vs, hvs, rfl, hp⟩ := h.sorted
  rw [List.filter_eq_self.2 hall] at hvs
  obtain rfl | ⟨va, y, rfl⟩ := vs.eq_nil_or_concat'
  · simp at hl
    omega
  · obtain ⟨b, t, rfl⟩ := List.append_of_mem (hvs.mem_iff.1 (by simp : y ∈ _))
    -- the last of the order has the largest counter, and is not the only one
    have hva : va.Perm (b ++ t) := by
      have := (List.perm_append_singleton y va).symm.trans (hvs.trans List.perm_middle)
      exact this.cons_inv
    have hmax : ∀ l ∈ b ++ t, l.usage < y.usage := by
      intro l hlm
      exact (List.pairwise_append.1 hp).2.2 l (hva.mem_iff.2 hlm) y (by simp)
    have hpos : 0 < y.usage := by
      obtain ⟨l, hlm⟩ : ∃ l, l ∈ b ++ t := by
        refine List.exists_mem_of_length_pos ?_
        simp only [List.length_append, List.length_cons] at hE ⊢
        omega
      exact (Nat.zero_le _).trans_lt (hmax l hlm)
    have hsel : selectLine (b ++ y :: t) tag =
        some (2, b.length, (b ++ y :: t).modify b.length fun l => { l with tag := tag }) := by
      rw [selectLine, findLine_eq_none h ht, findEmptyLine_eq_none.2 hall,
        findLruLine_max hpos (fun l hlm => hmax l (List.mem_append_left _ hlm))
          fun l hlm => hmax l (List.mem_append_right _ hlm)]
      rfl
    rw [modify_split] at hsel
    refine ⟨b, _, t, va, hsel, by simp, hall y (by simp), rfl, ?_,
      (List.pairwise_append.1 hp).1, ?_⟩
    · rwa [List.filter_eq_self.2 fun l hlm => hall l (by
        rcases List.mem_append.1 hlm with hlm | hlm <;> simp [hlm])]
    · simp

/-! ## One access -/

/-- The result code of an access that is no `M`. -/
def code : Outcome → ℕ
  | .hit => 0
  | .miss => 1
  | .evict => 2

/-- The result code of an operation. -/
def resultCode (op : Op) (o : Outcome) : ℕ :=
  if op = .M then code o + 3 else code o

theorem selects_access (h : Ordered lines tags) (hE : 2 ≤ lines.length) (tag : UInt64) :
    ∃ rest, Selects lines tag (code (outcome lines.length tags tag)) rest ∧
      access lines.length tags tag = tag :: rest := by
  by_cases ht : tag ∈ tags
  · rw [access, outcome_of_mem ht]
    exact ⟨_, selects_hit h ht, rfl⟩
  · by_cases hl : tags.length < lines.length
    · rw [access, outcome_of_lt ht hl]
      exact ⟨_, selects_miss h ht hl, rfl⟩
    · have hlen := h.length_le
      rw [access, outcome_of_le ht (by omega)]
      exact ⟨_, selects_evict h ht hE (by omega), rfl⟩

/-- An access of a set is an access of its recency list. -/
theorem memoryOp_eq (tag : UInt64) (op : Op) (h : Ordered lines tags) (hE : 2 ≤ lines.length)
    (hu : ∀ l ∈ lines, l.usage ≤ n) (hn : ((n + 1 : ℕ) : ℕ∞) ≤ max) :
    ∃ lines', memoryOp max lines tag op =
        some (resultCode op (outcome lines.length tags tag), lines') ∧
      Ordered lines' (access lines.length tags tag) ∧ lines'.length = lines.length ∧
      ∀ l ∈ lines', l.usage ≤ n + 1 := by
  obtain ⟨rest, ⟨b, x, t, rs, hsel, husage, hv, rfl, hrs, hp, rfl⟩, hacc⟩ :=
    selects_access h hE tag
  have hle : ∀ l ∈ b ++ x :: t, l.usage ≤ n := by
    intro l hl
    have hmem : l.usage ∈ (b ++ x :: t).map Line.usage := List.mem_map_of_mem hl
    rw [husage] at hmem
    obtain ⟨l', hl', heq⟩ := List.mem_map.1 hmem
    exact heq ▸ hu l' hl'
  have hbump : ∀ l ∈ b ++ x :: t, ((l.usage + 1 : ℕ) : ℕ∞) ≤ max := fun l hl =>
    le_trans (by exact_mod_cast Nat.succ_le_succ (hle l hl)) hn
  have hinv := (Invariant.access (t := x.tag) ⟨h.nodup, h.length_le⟩ (by omega)).nodup
  rw [hacc] at hinv ⊢
  refine ⟨_, ?_, ordered_touch (t := t) hv hinv hrs hp, ?_, ?_⟩
  · rw [memoryOp, hsel, Option.bind_eq_bind, Option.bind_some]
    simp only [updateUsage_eq hbump, Option.bind_eq_bind, Option.bind_some]
    rfl
  · simpa using congrArg List.length husage
  · intro l hl
    rcases List.mem_append.1 hl with hl | hl
    · obtain ⟨l', hl', rfl⟩ := List.mem_map.1 hl
      exact Nat.succ_le_succ (hle l' (by simp [hl']))
    · rcases List.mem_cons.1 hl with rfl | hl
      · exact Nat.zero_le _
      · obtain ⟨l', hl', rfl⟩ := List.mem_map.1 hl
        exact Nat.succ_le_succ (hle l' (by simp [hl']))

/-! ## The reference -/

/-- A recency list for each set, and the counts. -/
structure Reference where
  tags : ℕ → List UInt64
  hits : ℕ
  misses : ℕ
  evictions : ℕ

namespace Reference

/-- The empty cache. -/
def empty : Reference :=
  ⟨fun _ => [], 0, 0, 0⟩

/-- A load or a store. -/
def access (E : ℕ) (c : Reference) (set : ℕ) (tag : UInt64) : Reference :=
  let o := outcome E (c.tags set) tag
  ⟨Function.update c.tags set (Recency.access E (c.tags set) tag),
    if o = .hit then c.hits + 1 else c.hits,
    if o = .hit then c.misses else c.misses + 1,
    if o = .evict then c.evictions + 1 else c.evictions⟩

/-- A line of the trace : `M` is a load followed by a store. -/
def perform (E : ℕ) (c : Reference) (a : Access) : Reference :=
  match a.op with
  | .I => c
  | .L => c.access E a.set a.tag
  | .S => c.access E a.set a.tag
  | .M => (c.access E a.set a.tag).access E a.set a.tag

/-- A trace, from the empty cache. -/
def run (E : ℕ) (trace : List Access) : Reference :=
  trace.foldl (perform E) empty

variable {c : Reference} {a : Access}

theorem invariant_access {set : ℕ} (hE : 0 < E) (h : ∀ i, Invariant E (c.tags i)) (i : ℕ) :
    Invariant E ((c.access E set tag).tags i) := by
  simp only [access, Function.update_apply]
  split_ifs
  · exact (h set).access hE
  · exact h i

/-- Every set holds at most `E` distinct tags. -/
theorem invariant_run (hE : 0 < E) (trace : List Access) (i : ℕ) :
    Invariant E ((run E trace).tags i) := by
  have hall : ∀ (trace : List Access) (c : Reference), (∀ i, Invariant E (c.tags i)) →
      ∀ i, Invariant E ((trace.foldl (perform E) c).tags i) := by
    intro trace
    induction trace with
    | nil => exact fun c h => h
    | cons a trace ih =>
      intro c h
      refine ih _ fun i => ?_
      unfold perform
      split
      · exact h i
      · exact invariant_access hE h i
      · exact invariant_access hE h i
      · exact invariant_access hE (invariant_access hE h) i
  exact hall trace empty (fun _ => invariant_nil) i

/-- What a data access does to the reference : one access of the list, and the counts that
the `switch` of `simulate` adds for its result code. -/
theorem perform_eq (ha : a.op ≠ .I) : c.perform E a =
    ⟨Function.update c.tags a.set (Recency.access E (c.tags a.set) a.tag),
      c.hits + (tally (resultCode a.op (outcome E (c.tags a.set) a.tag))).1,
      c.misses + (tally (resultCode a.op (outcome E (c.tags a.set) a.tag))).2.1,
      c.evictions + (tally (resultCode a.op (outcome E (c.tags a.set) a.tag))).2.2⟩ := by
  obtain ⟨op, set, tag⟩ := a
  cases op with
  | I => exact absurd rfl ha
  | L | S =>
    cases ho : outcome E (c.tags set) tag <;> simp [perform, access, ho, resultCode, code, tally]
  | M =>
    -- the store is a hit
    have hhit : outcome E (Recency.access E (c.tags set) tag) tag = .hit := outcome_access
    cases ho : outcome E (c.tags set) tag <;>
      simp [perform, access, ho, hhit, resultCode, code, tally, access_access]

end Reference

/-! ## The simulation -/

/-- The simulator after `n` lines of the trace, and the reference. -/
structure Simulates (E S n : ℕ) (sim : Sim) (c : Reference) : Prop where
  length : sim.sets.length = S
  ordered : ∀ i lines, sim.sets[i]? = some lines →
    Ordered lines (c.tags i) ∧ lines.length = E ∧ ∀ l ∈ lines, l.usage ≤ n
  hits : sim.u = c.hits
  misses : sim.v = c.misses
  evictions : sim.w = c.evictions
  counts : sim.u ≤ 2 * n ∧ sim.v ≤ 2 * n ∧ sim.w ≤ 2 * n

variable {S : ℕ} {sim : Sim} {c : Reference} {a : Access}

/-- A new set has no valid line. -/
theorem ordered_create (E : ℕ) : Ordered (setCreate E) [] := by
  refine ⟨List.nodup_nil, [], ?_, rfl, List.Pairwise.nil⟩
  rw [List.filter_eq_nil_iff.2]
  intro l hl
  rw [List.eq_of_mem_replicate hl]
  simp

theorem usage_create (E : ℕ) : ∀ l ∈ setCreate E, l.usage ≤ 0 := by
  intro l hl
  rw [List.eq_of_mem_replicate hl]

theorem simulates_init : Simulates E S 0 ⟨cacheCreate S E, 0, 0, 0⟩ .empty where
  length := List.length_replicate
  ordered i lines hi := by
    obtain rfl := List.eq_of_mem_replicate (List.mem_of_getElem? hi)
    exact ⟨ordered_create E, List.length_replicate, usage_create E⟩
  hits := rfl
  misses := rfl
  evictions := rfl
  counts := ⟨le_rfl, le_rfl, le_rfl⟩

theorem tally_le (r : ℕ) : (tally r).1 ≤ 2 ∧ (tally r).2.1 ≤ 2 ∧ (tally r).2.2 ≤ 2 := by
  unfold tally
  split <;> decide

theorem addInt_of_le {a b m : ℕ} (h : a + b ≤ m) (hm : (m : ℕ∞) ≤ max) :
    addInt max a b = some (a + b) :=
  if_pos (le_trans (by exact_mod_cast h) hm)

/-- Each line of the trace takes the simulator where it takes the reference. -/
theorem simulates_step (h : Simulates E S n sim c) (hE : 2 ≤ E) (ha : a.op ≠ .I → a.set < S)
    (hn : ((2 * (n + 1) : ℕ) : ℕ∞) ≤ max) :
    ∃ sim', simStep max sim a = some sim' ∧ Simulates E S (n + 1) sim' (c.perform E a) := by
  obtain ⟨hu, hv, hw⟩ := h.counts
  by_cases hI : a.op = .I
  · refine ⟨sim, if_pos hI, ?_⟩
    have hc : c.perform E a = c := by
      rw [Reference.perform, hI]
    rw [hc]
    refine ⟨h.length, fun i lines hi => ?_, h.hits, h.misses, h.evictions, by omega⟩
    obtain ⟨ho, hl, hle⟩ := h.ordered i lines hi
    exact ⟨ho, hl, fun l hlm => (hle l hlm).trans (Nat.le_succ n)⟩
  · have hset : a.set < sim.sets.length := by
      rw [h.length]
      exact ha hI
    obtain ⟨ho, hl, hle⟩ := h.ordered a.set _ (List.getElem?_eq_getElem hset)
    obtain ⟨lines', hop, ho', hl', hle'⟩ := memoryOp_eq a.tag a.op ho
      (by omega) hle (le_trans (by exact_mod_cast (by omega : n + 1 ≤ 2 * (n + 1))) hn)
    rw [hl] at hop ho'
    rw [Reference.perform_eq hI]
    generalize resultCode a.op (outcome E (c.tags a.set) a.tag) = r at hop ⊢
    obtain ⟨h₁, h₂, h₃⟩ := tally_le r
    refine ⟨⟨sim.sets.set a.set lines', sim.u + (tally r).1, sim.v + (tally r).2.1,
      sim.w + (tally r).2.2⟩, ?_, ?_⟩
    · rw [simStep, if_neg hI, List.getElem?_eq_getElem hset]
      simp only [Option.bind_eq_bind, Option.bind_some, hop]
      rw [addInt_of_le (by omega) hn, addInt_of_le (by omega) hn, addInt_of_le (by omega) hn]
      rfl
    · refine ⟨by rw [List.length_set, h.length], fun i lines hi => ?_, by rw [h.hits],
        by rw [h.misses], by rw [h.evictions], by dsimp only; omega⟩
      simp only [Function.update_apply]
      rw [List.getElem?_set] at hi
      split_ifs at hi with hi' <;> split_ifs with heq
      · obtain rfl := Option.some.inj hi
        exact ⟨ho', by omega, hle'⟩
      · exact absurd hi'.symm heq
      · exact absurd heq.symm hi'
      · obtain ⟨ho, hl, hle⟩ := h.ordered i lines hi
        exact ⟨ho, hl, fun l hlm => (hle l hlm).trans (Nat.le_succ n)⟩

theorem simulates_run (hE : 2 ≤ E) (trace : List Access) (h : Simulates E S n sim c)
    (ha : ∀ a ∈ trace, a.op ≠ .I → a.set < S)
    (hn : ((2 * (n + trace.length) : ℕ) : ℕ∞) ≤ max) :
    ∃ sim', trace.foldlM (simStep max) sim = some sim' ∧
      Simulates E S (n + trace.length) sim' (trace.foldl (Reference.perform E) c) := by
  induction trace generalizing n sim c with
  | nil => exact ⟨sim, rfl, h⟩
  | cons a trace ih =>
    have hlen : n + (a :: trace).length = n + 1 + trace.length := by
      simp only [List.length_cons]
      omega
    rw [hlen] at hn ⊢
    obtain ⟨sim₁, hs, h₁⟩ := simulates_step h hE (ha a List.mem_cons_self)
      (le_trans (by exact_mod_cast (by omega : 2 * (n + 1) ≤ 2 * (n + 1 + trace.length))) hn)
    obtain ⟨sim', hr, h'⟩ := ih h₁ (fun b hb => ha b (List.mem_cons_of_mem _ hb)) hn
    exact ⟨sim', by rw [List.foldlM_cons, hs]; exact hr, h'⟩

/-- With two lines a set at least, and less than `2 ^ 30` accesses, the simulation of any
trace counts the hits, misses and evictions of the least-recently-used reference, each of
whose sets holds at most `E` distinct tags. -/
theorem simulate_eq_reference (hE : 2 ≤ E) (trace : List Access)
    (hset : ∀ a ∈ trace, a.op ≠ .I → a.set < S) (hlen : trace.length < 2 ^ 30) :
    (∃ sim, simulate intMax (cacheCreate S E) trace = some sim ∧
      sim.u = (Reference.run E trace).hits ∧ sim.v = (Reference.run E trace).misses ∧
      sim.w = (Reference.run E trace).evictions) ∧
    ∀ i, Invariant E ((Reference.run E trace).tags i) := by
  have hmax : ((2 * (0 + trace.length) : ℕ) : ℕ∞) ≤ (intMax : ℕ∞) := by
    rw [intMax]
    exact_mod_cast (by omega : 2 * (0 + trace.length) ≤ 2 ^ 31 - 1)
  obtain ⟨sim, hr, h⟩ := simulates_run hE trace simulates_init hset hmax
  exact ⟨⟨sim, hr, h.hits, h.misses, h.evictions⟩, Reference.invariant_run (by omega) trace⟩

/-- Three tags compete for a set of two lines. -/
theorem simulate_eq_reference_three : ∃ sim, simulate intMax (cacheCreate 1 2)
    [⟨.L, 0, 1⟩, ⟨.M, 0, 2⟩, ⟨.S, 0, 1⟩, ⟨.L, 0, 3⟩, ⟨.L, 0, 2⟩] = some sim ∧
      sim.u = 2 ∧ sim.v = 4 ∧ sim.w = 2 :=
  (simulate_eq_reference (by decide) _ (by decide) (by decide)).1

end Csim

end ClassProjects
