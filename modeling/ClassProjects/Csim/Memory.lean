import ClassProjects.Csim.Account
import ClassProjects.Lib.ForLoop
import ClassProjects.Lib.Heap

/-!
# The memory of the cache simulator

The functions of `csim.c` on the blocks that they allocate : the `Cache` and its array of
pointers, each `Set` and the array of its lines. An access to a block that is not allocated, or
outside of an array, goes wrong (`none`), and so does reading what was never assigned. A line is
assigned as a whole. `malloc` never fails.

`memory_op` on a set in memory does what `Csim.memoryOp` does with the list of its lines, also
where that is undefined, and it leaves all other blocks alone (`memoryOp_rel`). So `main` prints
what `Csim.main` prints, and goes wrong only where that is undefined. At its end every block
that it allocated has been freed once (`main_memory`).
-/

namespace ClassProjects

namespace Csim

namespace Memory

open Heap

/-! ## The structures -/

/-- `Cache`, its array `sets`, `Set`, and its array `lines`. What is not assigned is `none`. -/
inductive Block
  | cache (S : ℕ) (geometry : Geometry) (sets : Option ℕ)
  | sets (ptrs : List (Option ℕ))
  | set (E : ℕ) (lines : Option ℕ)
  | lines (array : List (Option Line))

/-- `cache->sets`. -/
def Block.setArray : Block → Option ℕ
  | .cache _ _ ptrs => ptrs
  | _ => none

/-- `sets[i]`. -/
def Block.setAt (i : ℕ) : Block → Option ℕ
  | .sets ptrs => ptrs[i]?.join
  | _ => none

/-- `sets[i] = p`. -/
def Block.putSet (i p : ℕ) : Block → Option Block
  | .sets ptrs => if i < ptrs.length then some (.sets (ptrs.set i (some p))) else none
  | _ => none

/-- `set->lines`. -/
def Block.lineArray : Block → Option ℕ
  | .set _ array => array
  | _ => none

/-- `lines[i]`. -/
def Block.lineAt (i : ℕ) : Block → Option Line
  | .lines array => array[i]?.join
  | _ => none

/-- `lines[i] = line`. -/
def Block.putLine (i : ℕ) (line : Line) : Block → Option Block
  | .lines array => if i < array.length then some (.lines (array.set i (some line))) else none
  | _ => none

/-- Assign to fields of `lines[i]`. -/
def Block.updateLine (i : ℕ) (f : Line → Option Line) (b : Block) : Option Block :=
  (b.lineAt i).bind fun l => (f l).bind fun l => b.putLine i l

variable (A : Allocator)

/-! ## The functions -/

/-- The loop of `Set_create`. -/
def clearLine (result i : ℕ) (h : Heap Block) : Option (Heap Block) :=
  ((h.load result).bind Block.lineArray).bind fun lines =>
    h.update lines (Block.putLine i ⟨false, 0, 0⟩)

/-- `Set_create`. -/
def setCreate (E : ℕ) (h : Heap Block) : Option (ℕ × Heap Block) :=
  let result := h.malloc A (.set E none)
  let lines := result.2.malloc A (.lines (List.replicate E none))
  (lines.2.store result.1 (.set E (some lines.1))).bind fun h =>
    (ForLoop.exec (clearLine result.1) E 0 h).map fun h => (result.1, h)

/-- The loop of `Cache_create`. -/
def addSet (E result i : ℕ) (h : Heap Block) : Option (Heap Block) :=
  (setCreate A E h).bind fun set =>
    ((set.2.load result).bind Block.setArray).bind fun sets =>
      set.2.update sets (Block.putSet i set.1)

/-- `Cache_create`. -/
def cacheCreate (s E b : ℕ) (h : Heap Block) : Option (ℕ × Heap Block) :=
  let S := 2 ^ s
  let result := h.malloc A (.cache S (geometry s b) none)
  let sets := result.2.malloc A (.sets (List.replicate S none))
  (sets.2.store result.1 (.cache S (geometry s b) (some sets.1))).bind fun h =>
    (ForLoop.exec (addSet A E result.1) S 0 h).map fun h => (result.1, h)

/-- `Set_destroy`. -/
def setDestroy (h : Heap Block) (set : ℕ) : Option (Heap Block) :=
  ((h.load set).bind Block.lineArray).bind fun lines => (h.free lines).bind (·.free set)

/-- The loop of `Cache_destroy`. -/
def dropSet (sets i : ℕ) (h : Heap Block) : Option (Heap Block) :=
  ((h.load sets).bind (Block.setAt i)).bind (setDestroy h)

/-- `Cache_destroy`. -/
def cacheDestroy (h : Heap Block) (cache : ℕ) : Option (Heap Block) :=
  (h.load cache).bind fun
    | .cache S _ (some sets) =>
      (ForLoop.exec (dropSet sets) S 0 h).bind fun h => (h.free sets).bind (·.free cache)
    | _ => none

/-- `find_line`, `none` inside for `-1`. -/
def findLine (h : Heap Block) (lines E : ℕ) (tag : UInt64) : Option (Option ℕ) :=
  ForLoop.search (fun i => ((h.load lines).bind (Block.lineAt i)).map fun l =>
    l.valid && l.tag = tag) E 0

/-- `find_empty_line`, `none` inside for `-1`. -/
def findEmptyLine (h : Heap Block) (lines E : ℕ) : Option (Option ℕ) :=
  ForLoop.search (fun i => ((h.load lines).bind (Block.lineAt i)).map fun l => !l.valid) E 0

/-- The loop of `find_lru_line` from line `i` on, `n` of which are left. -/
def lruScan (h : Heap Block) (lines : ℕ) : ℕ → ℕ → ℕ → Option ℕ → Option ℕ
  | 0, _, _, m => m
  | n + 1, i, max, m =>
    ((h.load lines).bind (Block.lineAt i)).bind fun l =>
      if l.usage > max then lruScan h lines n (i + 1) l.usage (some i)
      else lruScan h lines n (i + 1) max m

/-- `find_lru_line`. -/
def findLruLine (h : Heap Block) (lines E : ℕ) : Option ℕ :=
  lruScan h lines E 0 0 none

/-- The first part of `memory_op` : `r`, the index `i`, and the heap. -/
def selectLine (h : Heap Block) (lines E : ℕ) (tag : UInt64) : Option (ℕ × ℕ × Heap Block) :=
  (findLine h lines E tag).bind fun
    | some i => some (0, i, h)
    | none =>
      (findEmptyLine h lines E).bind fun
        | some i =>
          (h.update lines (Block.updateLine i fun l => some { l with valid := true })).bind fun h =>
            (h.update lines (Block.updateLine i fun l => some { l with tag := tag })).map fun h =>
              (1, i, h)
        | none =>
          (findLruLine h lines E).bind fun i =>
            (h.update lines (Block.updateLine i fun l => some { l with tag := tag })).map fun h =>
              (2, i, h)

/-- `usage++`. -/
def countUp (max : ℕ∞) (l : Line) : Option Line :=
  (addInt max l.usage 1).map fun u => { l with usage := u }

/-- Update the usage. -/
def updateUsage (max : ℕ∞) (h : Heap Block) (lines E i : ℕ) : Option (Heap Block) :=
  (ForLoop.exec (fun j h => h.update lines (Block.updateLine j (countUp max))) E 0 h).bind fun h =>
    h.update lines (Block.updateLine i fun l => some { l with usage := 0 })

/-- `memory_op`. -/
def memoryOp (max : ℕ∞) (h : Heap Block) (set : ℕ) (tag : UInt64) (op : Op) :
    Option (ℕ × Heap Block) :=
  (h.load set).bind fun
    | .set E (some lines) =>
      (selectLine h lines E tag).bind fun x =>
        (updateUsage max x.2.2 lines E x.2.1).map fun h =>
          (if op = .M then x.1 + 3 else x.1, h)
    | _ => none

/-- The heap, and the counters of `simulate`. -/
structure State where
  heap : Heap Block
  u : ℕ
  v : ℕ
  w : ℕ

/-- The rest of an iteration of `simulate`, for an operation that accesses data. -/
def access (max : ℕ∞) (cache : ℕ) (st : State) (a : Access) : Option State := do
  let sets ← (st.heap.load cache).bind Block.setArray
  let set ← (st.heap.load sets).bind (Block.setAt a.set)
  let (r, heap) ← memoryOp max st.heap set a.tag a.op
  let u ← addInt max st.u (tally r).1
  let v ← addInt max st.v (tally r).2.1
  let w ← addInt max st.w (tally r).2.2
  some ⟨heap, u, v, w⟩

/-- `simulate`. -/
def simulate (rule : IntRule) (max : ℕ∞) (h : Heap Block) (cache : ℕ) (tr : CStr) :
    Option State :=
  (h.load cache).bind fun
    | .cache _ geometry _ => readTrace (access max cache) rule geometry ⟨h, 0, 0, 0⟩ tr
    | _ => none

/-- `main` : what it prints, and the heap at its end. -/
def main (rule : IntRule) (s E b : ℕ) (tr : CStr) (h : Heap Block) :
    Option ((CStr × CStr) × Heap Block) :=
  if s ≤ 30 then
    (cacheCreate A s E b h).bind fun cache =>
      (simulate rule intMax cache.2 cache.1 tr).bind fun sim =>
        (cacheDestroy sim.heap cache.1).map fun h => (printSummary sim.u sim.v sim.w, h)
  else none

/-! ## An array of lines -/

variable {A} {h h' : Heap Block} {F : Multiset (ℕ × Block)} {p i E : ℕ} {tag : UInt64} {op : Op}
  {max : ℕ∞} {xs : List Line}

/-- An array of lines that are assigned. -/
abbrev linesBlock (p : ℕ) (xs : List Line) : ℕ × Block :=
  (p, .lines (xs.map some))

theorem lineAt_eq (hh : Holds h (linesBlock p xs ::ₘ F)) (i : ℕ) :
    (h.load p).bind (Block.lineAt i) = xs[i]? := by
  rw [hh.load, Option.bind_some, Block.lineAt, List.getElem?_map]
  cases xs[i]? <;> rfl

theorem putLine_eq (array : List (Option Line)) (hi : i < array.length) (l : Line) :
    Block.putLine i l (.lines array) = some (.lines (array.set i (some l))) :=
  if_pos hi

/-- The line of an array that is `done ++ x :: xs` between `done` and `xs`. -/
theorem updateLine_rel (f : Line → Option Line) {done : List Line} {x : Line}
    (hh : Holds h (linesBlock p (done ++ x :: xs) ::ₘ F)) :
    Option.Rel (fun h' y => Holds h' (linesBlock p (done ++ y :: xs) ::ₘ F))
      (h.update p (Block.updateLine done.length f)) (f x) := by
  have hat : Block.lineAt done.length (.lines ((done ++ x :: xs).map some)) = some x := by
    simp [Block.lineAt]
  have hput : ∀ y, Block.putLine done.length y (.lines ((done ++ x :: xs).map some)) =
      some (.lines ((done ++ y :: xs).map some)) := by
    intro y
    rw [putLine_eq _ (by simp)]
    simp
  have hupdate : Block.updateLine done.length f (.lines ((done ++ x :: xs).map some)) =
      (f x).map fun y => .lines ((done ++ y :: xs).map some) := by
    simp only [Block.updateLine, hat, Option.bind_some, hput]
    cases f x <;> rfl
  cases hf : f x with
  | none =>
    rw [hf] at hupdate
    rw [hh.update_none hupdate]
    exact .none
  | some y =>
    rw [hf] at hupdate
    obtain ⟨h', hup, hh'⟩ := hh.update hupdate
    rw [hup]
    exact .some hh'

/-- An assignment to fields of a line. -/
theorem modifyLine (f : Line → Line) (hh : Holds h (linesBlock p xs ::ₘ F)) (hi : i < xs.length) :
    ∃ h', h.update p (Block.updateLine i fun l => some (f l)) = some h' ∧
      Holds h' (linesBlock p (xs.modify i f) ::ₘ F) := by
  have hlen : (xs.take i).length = i := List.length_take_of_le (Nat.le_of_lt hi)
  have hsplit : xs.take i ++ xs[i] :: xs.drop (i + 1) = xs := by simp
  rw [← hsplit] at hh
  have hrel := updateLine_rel (fun l => some (f l)) hh
  rw [hlen] at hrel
  rw [List.modify_eq_take_cons_drop hi]
  obtain ⟨h', hup, hh'⟩ := ForLoop.rel_some_iff.1 hrel
  exact ⟨h', hup, hh'⟩

/-! ## Accesses -/

/-- A search for a line is one in the list of the lines. -/
theorem search_lines (hh : Holds h (linesBlock p xs ::ₘ F)) (q : Line → Bool) :
    ForLoop.search (fun i => ((h.load p).bind (Block.lineAt i)).map q) xs.length 0 =
      some (xs.findIdx? q) := by
  have hsearch := @ForLoop.search_eq Line
    (fun i => ((h.load p).bind (Block.lineAt i)).map q) 0 q xs fun j x hx => by
      rw [lineAt_eq hh, Nat.zero_add, hx, Option.map_some]
  simpa using hsearch

theorem findLine_eq (hh : Holds h (linesBlock p xs ::ₘ F)) (tag : UInt64) :
    findLine h p xs.length tag = some (Csim.findLine xs tag) :=
  search_lines hh _

theorem findEmptyLine_eq (hh : Holds h (linesBlock p xs ::ₘ F)) :
    findEmptyLine h p xs.length = some (Csim.findEmptyLine xs) :=
  search_lines hh _

theorem lruScan_eq {done rest : List Line} (hh : Holds h (linesBlock p (done ++ rest) ::ₘ F))
    (m : ℕ) (o : Option ℕ) :
    lruScan h p rest.length done.length m o = Csim.lruScan done.length m o rest := by
  induction rest generalizing done m o with
  | nil => rfl
  | cons l rest ih =>
    have hat : (h.load p).bind (Block.lineAt done.length) = some l := by
      rw [lineAt_eq hh]
      simp
    have hlen : done.length + 1 = (done ++ [l]).length := by
      rw [List.length_append, List.length_singleton]
    have hnext := @ih (done ++ [l]) (by simpa using hh)
    rw [List.length_cons, lruScan, Csim.lruScan, hat, Option.bind_some, hlen, hnext, hnext]

theorem findLruLine_eq (hh : Holds h (linesBlock p xs ::ₘ F)) :
    findLruLine h p xs.length = Csim.findLruLine xs :=
  @lruScan_eq h F p [] xs hh 0 none

/-- The first part of `memory_op`. -/
theorem selectLine_rel (hh : Holds h (linesBlock p xs ::ₘ F)) (tag : UInt64) :
    Option.Rel (fun x y => x.1 = y.1 ∧ x.2.1 = y.2.1 ∧ Holds x.2.2 (linesBlock p y.2.2 ::ₘ F))
      (selectLine h p xs.length tag) (Csim.selectLine xs tag) := by
  rw [selectLine, findLine_eq hh, Option.bind_some]
  cases hline : Csim.findLine xs tag with
  | some i =>
    rw [Csim.selectLine, hline]
    exact .some ⟨rfl, rfl, hh⟩
  | none =>
    dsimp only
    rw [findEmptyLine_eq hh, Option.bind_some]
    cases hempty : Csim.findEmptyLine xs with
    | some i =>
      have hsel : Csim.selectLine xs tag =
          some (1, i, xs.modify i fun l => { l with valid := true, tag := tag }) := by
        rw [Csim.selectLine, hline, hempty]
      have hi := (selectLine_spec hsel).1
      obtain ⟨h₁, hup₁, hh₁⟩ := modifyLine (fun l => { l with valid := true }) hh hi
      obtain ⟨h₂, hup₂, hh₂⟩ := modifyLine (fun l => { l with tag := tag }) hh₁
        (by rwa [List.length_modify])
      rw [List.modify_modify_eq] at hh₂
      dsimp only
      rw [hsel, hup₁, Option.bind_some, hup₂]
      exact .some ⟨rfl, rfl, hh₂⟩
    | none =>
      dsimp only
      rw [findLruLine_eq hh]
      cases hlru : Csim.findLruLine xs with
      | none =>
        rw [Csim.selectLine, hline, hempty, hlru]
        exact .none
      | some i =>
        have hsel : Csim.selectLine xs tag =
            some (2, i, xs.modify i fun l => { l with tag := tag }) := by
          rw [Csim.selectLine, hline, hempty, hlru]
          rfl
        obtain ⟨h', hup, hh'⟩ :=
          modifyLine (fun l => { l with tag := tag }) hh (selectLine_spec hsel).1
        rw [hsel, Option.bind_some, hup]
        exact .some ⟨rfl, rfl, hh'⟩

/-- Updating the usage. -/
theorem updateUsage_rel (max : ℕ∞) (hh : Holds h (linesBlock p xs ::ₘ F)) (hi : i < xs.length) :
    Option.Rel (fun h' ys => ys.length = xs.length ∧ Holds h' (linesBlock p ys ::ₘ F))
      (updateUsage max h p xs.length i) (Csim.updateUsage max i xs) := by
  have hloop : Option.Rel (fun h ys => ys.length = xs.length ∧ Holds h (linesBlock p ys ::ₘ F))
      (ForLoop.exec (fun j h => h.update p (Block.updateLine j (countUp max))) xs.length 0 h)
      (xs.mapM (countUp max)) := by
    refine @ForLoop.exec_mapM _ _ _ _ (countUp max)
      (fun ys h => ys.length = xs.length ∧ Holds h (linesBlock p ys ::ₘ F)) ?_ [] xs ⟨rfl, hh⟩
    rintro done x rest h ⟨hlen, hh⟩
    have hlen' : ∀ y, (done ++ y :: rest).length = xs.length := fun y => by simpa using hlen
    have hrel := updateLine_rel (countUp max) hh
    exact ForLoop.rel_imp hrel fun h' y hh' => ⟨hlen' y, hh'⟩
  have hbind : Csim.updateUsage max i xs = (xs.mapM (countUp max)).bind fun ys =>
      some (ys.modify i fun l => { l with usage := 0 }) := Option.map_eq_bind
  rw [hbind]
  refine ForLoop.rel_bind hloop fun h' ys ⟨hlen, hh'⟩ => ?_
  obtain ⟨h'', hup, hh''⟩ := modifyLine (fun l => { l with usage := 0 }) hh' (hlen ▸ hi)
  rw [hup]
  exact .some ⟨by rwa [List.length_modify], hh''⟩

/-! ## Sets and the cache -/

/-- What a set owns : its block, and the array of its lines. -/
def setBlocks (x : ℕ × ℕ × List Line) : Multiset (ℕ × Block) :=
  (x.1, .set x.2.2.length (some x.2.1)) ::ₘ {linesBlock x.2.1 x.2.2}

/-- What the sets of an array own. -/
def setsBlocks (xs : List (ℕ × ℕ × List Line)) : Multiset (ℕ × Block) :=
  (xs.map setBlocks).sum

/-- What a cache owns : its block, the array of pointers, and the sets. -/
def cacheBlocks (cache sets : ℕ) (g : Geometry) (xs : List (ℕ × ℕ × List Line)) :
    Multiset (ℕ × Block) :=
  (cache, .cache xs.length g (some sets)) ::ₘ
    (sets, .sets (xs.map fun x => some x.1)) ::ₘ setsBlocks xs

/-- `memory_op` on a set in memory is `memory_op` on the list of its lines. -/
theorem memoryOp_rel {x : ℕ × ℕ × List Line} (max : ℕ∞) (hh : Holds h (setBlocks x + F))
    (tag : UInt64) (op : Op) :
    Option.Rel (fun r r' => r.1 = r'.1 ∧ Holds r.2 (setBlocks (x.1, x.2.1, r'.2) + F))
      (memoryOp max h x.1 tag op) (Csim.memoryOp max x.2.2 tag op) := by
  obtain ⟨set, p, xs⟩ := x
  have hset : setBlocks (set, p, xs) + F = (set, .set xs.length (some p)) ::ₘ
      linesBlock p xs ::ₘ F := by
    simp only [setBlocks, Multiset.cons_add, Multiset.singleton_add]
  rw [hset] at hh
  have hlines : ∀ {h ys}, Holds h (linesBlock p ys ::ₘ (set, .set xs.length (some p)) ::ₘ F) →
      ys.length = xs.length → Holds h (setBlocks (set, p, ys) + F) := by
    intro h ys hh hlen
    rw [setBlocks, hlen, Multiset.cons_add, Multiset.singleton_add, Multiset.cons_swap]
    exact hh
  rw [memoryOp, hh.load, Option.bind_some]
  rw [Multiset.cons_swap] at hh
  have hsel : ∀ b, Csim.selectLine xs tag = some b →
      b.2.1 < xs.length ∧ b.2.2.length = xs.length := by
    rintro ⟨r, i, ys⟩ hsel
    obtain ⟨hi, rfl⟩ := selectLine_spec hsel
    exact ⟨hi, List.length_modify _ _ _⟩
  refine ForLoop.rel_bind (ForLoop.rel_and (selectLine_rel hh tag) hsel) ?_
  rintro ⟨r, i, h₁⟩ ⟨r', i', ys⟩ ⟨⟨hr, hi', hh₁⟩, hi, hlen⟩
  obtain rfl : r = r' := hr
  obtain rfl : i = i' := hi'
  dsimp only at hi hlen hh₁ ⊢
  rw [← hlen] at hi ⊢
  rw [Option.map_eq_bind]
  refine ForLoop.rel_bind (updateUsage_rel max hh₁ hi) ?_
  rintro h₂ zs ⟨hlen', hh₂⟩
  exact .some ⟨rfl, hlines hh₂ (hlen'.trans hlen)⟩

theorem setsBlocks_middle (done : List (ℕ × ℕ × List Line)) (x : ℕ × ℕ × List Line)
    (rest : List (ℕ × ℕ × List Line)) :
    setsBlocks (done ++ x :: rest) = setBlocks x + setsBlocks (done ++ rest) := by
  simp only [setsBlocks, List.map_append, List.map_cons, List.sum_append, List.sum_cons]
  abel

/-- A cache in memory stands for the list of its sets. -/
structure Rep (cache : ℕ) (g : Geometry) (F : Multiset (ℕ × Block)) (st : State) (sim : Sim) :
    Prop where
  blocks : ∃ sets xs, Holds st.heap (cacheBlocks cache sets g xs + F) ∧
    sim.sets = xs.map fun x => x.2.2
  u : st.u = sim.u
  v : st.v = sim.v
  w : st.w = sim.w

variable {cache sets : ℕ} {g : Geometry} {st : State} {sim : Sim}

theorem setArray_eq {S : ℕ} (hh : Holds h ((cache, .cache S g (some sets)) ::ₘ F)) :
    (h.load cache).bind Block.setArray = some sets := by
  rw [hh.load]
  rfl

theorem setAt_eq {xs : List (ℕ × ℕ × List Line)}
    (hh : Holds h ((sets, .sets (xs.map fun x => some x.1)) ::ₘ F)) :
    (h.load sets).bind (Block.setAt i) = xs[i]?.map Prod.fst := by
  rw [hh.load, Option.bind_some, Block.setAt, List.getElem?_map]
  cases xs[i]? <;> rfl

/-- An iteration of `simulate` on a cache in memory. -/
theorem access_rel (max : ℕ∞) {a : Access} (ha : a.op ≠ .I) (hr : Rep cache g F st sim) :
    Option.Rel (Rep cache g F) (access max cache st a) (simStep max sim a) := by
  obtain ⟨⟨sets, xs, hh, hsets⟩, hu, hv, hw⟩ := hr
  have hcache := hh
  rw [cacheBlocks, Multiset.cons_add, Multiset.cons_add] at hcache
  have hptr := hcache
  rw [Multiset.cons_swap] at hptr
  rw [simStep, if_neg ha, access, setArray_eq hcache, hsets, List.getElem?_map, hu, hv, hw]
  simp only [Option.bind_eq_bind, Option.bind_some, setAt_eq hptr]
  cases hx : xs[a.set]? with
  | none => exact .none
  | some x =>
    simp only [Option.map_some, Option.bind_some]
    obtain ⟨done, rest, rfl, hlen⟩ := split_of_getElem? hx
    have hframe : ∀ x' : ℕ × ℕ × List Line, x'.1 = x.1 →
        cacheBlocks cache sets g (done ++ x' :: rest) + F = setBlocks x' +
          ((cache, .cache (done ++ x :: rest).length g (some sets)) ::ₘ
            (sets, .sets ((done ++ x :: rest).map fun x => some x.1)) ::ₘ
              (setsBlocks (done ++ rest) + F)) := by
      intro x' hx'
      have hmap : ((done ++ x' :: rest).map fun x => some x.1) =
          (done ++ x :: rest).map fun x => some x.1 := by
        simp [hx']
      have hlength : (done ++ x' :: rest).length = (done ++ x :: rest).length := by simp
      rw [cacheBlocks, setsBlocks_middle, hmap, hlength]
      simp only [← Multiset.singleton_add]
      abel
    rw [hframe x rfl] at hh
    refine ForLoop.rel_bind (memoryOp_rel max hh a.tag a.op) ?_
    rintro ⟨r, h₁⟩ ⟨r', ys⟩ ⟨hr, hh₁⟩
    obtain rfl : r = r' := hr
    have hset : ((done ++ x :: rest).map fun x => x.2.2).set a.set ys =
        (done ++ (x.1, x.2.1, ys) :: rest).map fun x => x.2.2 := by
      simp [← hlen]
    rw [hset]
    dsimp only
    cases addInt max sim.u (tally r).1 with
    | none => exact .none
    | some u =>
      cases addInt max sim.v (tally r).2.1 with
      | none => exact .none
      | some v =>
        cases addInt max sim.w (tally r).2.2 with
        | none => exact .none
        | some w =>
          refine .some ⟨⟨sets, _, ?_, rfl⟩, rfl, rfl, rfl⟩
          rw [hframe (x.1, x.2.1, ys) rfl]
          exact hh₁

/-! ## The loop -/

section

variable {σ τ : Type} {R : σ → τ → Prop} {acc : σ → Access → Option σ}
  {acc' : τ → Access → Option τ} {s : σ} {t : τ} {rule : IntRule}

theorem opOf_ne {c : Char} (hc : c ≠ 'I') : opOf c ≠ .I := by
  rw [opOf, if_neg hc]
  split_ifs <;> decide

/-- Iterations on the same text, with accesses that agree. -/
theorem pass_rel (hacc : ∀ s t a, a.op ≠ .I → R s t → Option.Rel R (acc s a) (acc' t a))
    (hs : R s t) (tr : CStr) :
    Option.Rel (Option.Rel fun x y => R x.1 y.1 ∧ x.2 = y.2) (pass acc rule g s tr)
      (pass acc' rule g t tr) := by
  unfold pass
  split
  · exact .some .none
  · rename_i op tr₁ _
    by_cases hI : op = 'I'
    · rw [if_pos hI, if_pos hI]
      exact .some (.some ⟨hs, rfl⟩)
    · rw [if_neg hI, if_neg hI]
      split
      · exact .none
      · rename_i addr tr₂ _
        cases decode rule g (BitVec.ofNat 64 addr) with
        | none => exact .none
        | some d =>
          simp only [Option.bind_eq_bind, Option.bind_some]
          refine ForLoop.rel_bind (hacc s t _ (opOf_ne hI) hs) fun s' t' hs' => ?_
          exact .some (.some ⟨hs', rfl⟩)
  · exact .none

/-- The loop of `simulate`, with accesses that agree. -/
theorem readTrace_rel (hacc : ∀ s t a, a.op ≠ .I → R s t → Option.Rel R (acc s a) (acc' t a))
    (hs : R s t) (tr : CStr) :
    Option.Rel R (readTrace acc rule g s tr) (readTrace acc' rule g t tr) := by
  induction t, tr using readTrace.induct acc' rule g generalizing s with
  | case1 t tr hp =>
    have hpass := @pass_rel g _ _ R acc acc' s t rule hacc hs tr
    rw [hp, ForLoop.rel_none_iff] at hpass
    rw [readTrace_wrong hp, readTrace_wrong hpass]
    exact .none
  | case2 t tr hp =>
    have hpass := @pass_rel g _ _ R acc acc' s t rule hacc hs tr
    rw [hp, ForLoop.rel_some_iff] at hpass
    obtain ⟨o, ho, hnone⟩ := hpass
    rw [ForLoop.rel_none_iff.1 hnone] at ho
    rw [readTrace_end hp, readTrace_end ho]
    exact .some hs
  | case3 t tr t₁ tr₁ hp ih =>
    have hpass := @pass_rel g _ _ R acc acc' s t rule hacc hs tr
    rw [hp, ForLoop.rel_some_iff] at hpass
    obtain ⟨o, ho, hnext⟩ := hpass
    obtain ⟨⟨s₁, tr₂⟩, rfl, hs₁, htr⟩ := ForLoop.rel_some_iff.1 hnext
    obtain rfl : tr₂ = tr₁ := htr
    rw [readTrace_next hp, readTrace_next ho]
    exact ih hs₁

end

/-! ## Creating and destroying -/

/-- An array that is assigned from its first entry on. -/
theorem set_filled {α : Type} (ys : List α) (a b : α) {n : ℕ} (hn : ys.length < n) :
    (ys ++ List.replicate (n - ys.length) b).set ys.length a =
      (ys ++ [a]) ++ List.replicate (n - (ys.length + 1)) b := by
  obtain ⟨k, hk⟩ : ∃ k, n - ys.length = k + 1 := ⟨n - ys.length - 1, by omega⟩
  have hk' : n - (ys.length + 1) = k := by omega
  rw [hk, hk', List.replicate_succ, List.set_append_right _ _ (Nat.le_refl _), Nat.sub_self,
    List.set_cons_zero, List.append_assoc, List.singleton_append]

theorem clearLine_spec {result : ℕ} (hi : i < E)
    (hh : Holds h ((result, .set E (some p)) ::ₘ
      (p, .lines (List.replicate i (some ⟨false, 0, 0⟩) ++ List.replicate (E - i) none)) ::ₘ F)) :
    ∃ h', clearLine result i h = some h' ∧ Holds h' ((result, .set E (some p)) ::ₘ
      (p, .lines (List.replicate (i + 1) (some ⟨false, 0, 0⟩) ++
        List.replicate (E - (i + 1)) none)) ::ₘ F) := by
  have harray : (h.load result).bind Block.lineArray = some p := by
    rw [hh.load]
    rfl
  have hfill := set_filled (List.replicate i (some (⟨false, 0, 0⟩ : Line))) (some ⟨false, 0, 0⟩)
    none (n := E) (by simpa using hi)
  rw [List.length_replicate, ← List.replicate_succ'] at hfill
  rw [Multiset.cons_swap] at hh
  have hput := @putLine_eq i (List.replicate i (some ⟨false, 0, 0⟩) ++ List.replicate (E - i) none)
    (by simp; omega) ⟨false, 0, 0⟩
  obtain ⟨h', hup, hh'⟩ := hh.update hput
  rw [hfill, Multiset.cons_swap] at hh'
  exact ⟨h', by rw [clearLine, harray, Option.bind_some, hup], hh'⟩

theorem setCreate_spec (A : Allocator) (E : ℕ) (hh : Holds h F) :
    ∃ (x : ℕ × ℕ × List Line) (h' : Heap Block), setCreate A E h = some (x.1, h') ∧
      x.2.2 = Csim.setCreate E ∧ Holds h' (setBlocks x + F) := by
  have hresult := hh.malloc A (.set E none)
  set result := h.malloc A (.set E none)
  have hlines := hresult.malloc A (.lines (List.replicate E none))
  set lines := result.2.malloc A (.lines (List.replicate E none))
  rw [Multiset.cons_swap] at hlines
  obtain ⟨h₁, hstore, hh₁⟩ := hlines.store (.set E (some lines.1))
  obtain ⟨h₂, hloop, hh₂⟩ := @ForLoop.exec_spec _ (clearLine result.1) E 0 h₁
    (fun i h => Holds h ((result.1, .set E (some lines.1)) ::ₘ (lines.1, .lines
      (List.replicate i (some ⟨false, 0, 0⟩) ++ List.replicate (E - i) none)) ::ₘ F))
    (fun i h _ hi hh => clearLine_spec (by omega) hh) hh₁
  refine ⟨(result.1, lines.1, Csim.setCreate E), h₂, ?_, rfl, ?_⟩
  · rw [setCreate, hstore, Option.bind_some, hloop]
    rfl
  · rw [Nat.zero_add, Nat.sub_self, List.replicate_zero, List.append_nil] at hh₂
    rw [setBlocks, linesBlock, Csim.setCreate, List.length_replicate, List.map_replicate,
      Multiset.cons_add, Multiset.singleton_add]
    exact hh₂

/-- Behind `i` iterations of the loop of `Cache_create`. -/
def Created (cache sets S E : ℕ) (g : Geometry) (F : Multiset (ℕ × Block)) (i : ℕ)
    (h : Heap Block) : Prop :=
  ∃ xs : List (ℕ × ℕ × List Line), xs.length = i ∧
    (xs.map fun x => x.2.2) = Csim.cacheCreate i E ∧
    Holds h ((cache, .cache S g (some sets)) ::ₘ
      (sets, .sets (xs.map (fun x => some x.1) ++ List.replicate (S - xs.length) none)) ::ₘ
        (setsBlocks xs + F))

theorem addSet_spec {S : ℕ} (A : Allocator) (hi : i < S) (hc : Created cache sets S E g F i h) :
    ∃ h', addSet A E cache i h = some h' ∧ Created cache sets S E g F (i + 1) h' := by
  obtain ⟨xs, rfl, hxs, hh⟩ := hc
  obtain ⟨x, h₁, hcreate, hx, hh₁⟩ := setCreate_spec A E hh
  have hh₁' : Holds h₁ ((cache, .cache S g (some sets)) ::ₘ
      (sets, .sets (xs.map (fun x => some x.1) ++ List.replicate (S - xs.length) none)) ::ₘ
        (setsBlocks (xs ++ [x]) + F)) := by
    refine hh₁.trans ?_
    rw [setsBlocks_middle, List.append_nil]
    simp only [← Multiset.singleton_add]
    abel
  have harray := setArray_eq hh₁'
  have hfill := set_filled (xs.map fun x => some x.1) (some x.1) none (n := S) (by simpa using hi)
  rw [List.length_map] at hfill
  rw [Multiset.cons_swap] at hh₁'
  have hput : Block.putSet xs.length x.1
      (.sets (xs.map (fun x => some x.1) ++ List.replicate (S - xs.length) none)) = some (.sets
        ((xs ++ [x]).map (fun x => some x.1) ++ List.replicate (S - (xs ++ [x]).length) none)) := by
    rw [Block.putSet, if_pos (by simp; omega), hfill, List.map_append, List.map_singleton,
      List.length_append, List.length_singleton]
  obtain ⟨h₂, hup, hh₂⟩ := hh₁'.update hput
  rw [Multiset.cons_swap] at hh₂
  refine ⟨h₂, ?_, xs ++ [x], by simp, ?_, hh₂⟩
  · rw [addSet, hcreate, Option.bind_some, harray, Option.bind_some, hup]
  · rw [List.map_append, hxs, List.map_singleton, hx, Csim.cacheCreate, Csim.cacheCreate,
      ← List.replicate_succ']

theorem cacheCreate_spec (A : Allocator) (s E b : ℕ) (hh : Holds h F) :
    ∃ (cache sets : ℕ) (xs : List (ℕ × ℕ × List Line)) (h' : Heap Block),
      cacheCreate A s E b h = some (cache, h') ∧
      (xs.map fun x => x.2.2) = Csim.cacheCreate (2 ^ s) E ∧
      Holds h' (cacheBlocks cache sets (geometry s b) xs + F) := by
  have hresult := hh.malloc A (.cache (2 ^ s) (geometry s b) none)
  set result := h.malloc A (.cache (2 ^ s) (geometry s b) none)
  have hsets := hresult.malloc A (.sets (List.replicate (2 ^ s) none))
  set sets := result.2.malloc A (.sets (List.replicate (2 ^ s) none))
  rw [Multiset.cons_swap] at hsets
  obtain ⟨h₁, hstore, hh₁⟩ := hsets.store (.cache (2 ^ s) (geometry s b) (some sets.1))
  have hstart : Created result.1 sets.1 (2 ^ s) E (geometry s b) F 0 h₁ :=
    ⟨[], rfl, rfl, by simpa [setsBlocks] using hh₁⟩
  obtain ⟨h₂, hloop, xs, hlen, hxs, hh₂⟩ := @ForLoop.exec_spec _ (addSet A E result.1) (2 ^ s) 0
    h₁ _ (fun i h _ hi => addSet_spec A (by omega)) hstart
  rw [Nat.zero_add] at hlen hxs
  refine ⟨result.1, sets.1, xs, h₂, ?_, hxs, ?_⟩
  · rw [cacheCreate, hstore, Option.bind_some, hloop]
    rfl
  · rw [hlen, Nat.sub_self, List.replicate_zero, List.append_nil] at hh₂
    rw [cacheBlocks, hlen, Multiset.cons_add, Multiset.cons_add]
    exact hh₂

theorem setDestroy_spec {x : ℕ × ℕ × List Line} (hh : Holds h (setBlocks x + F)) :
    ∃ h', setDestroy h x.1 = some h' ∧ Holds h' F := by
  rw [setBlocks, Multiset.cons_add, Multiset.singleton_add] at hh
  have harray : (h.load x.1).bind Block.lineArray = some x.2.1 := by
    rw [hh.load]
    rfl
  rw [Multiset.cons_swap] at hh
  obtain ⟨h₁, hfree₁, hh₁⟩ := hh.free
  obtain ⟨h₂, hfree₂, hh₂⟩ := hh₁.free
  exact ⟨h₂, by rw [setDestroy, harray, Option.bind_some, hfree₁, Option.bind_some, hfree₂], hh₂⟩

theorem dropSet_spec {xs : List (ℕ × ℕ × List Line)} (hi : i < xs.length)
    (hh : Holds h ((cache, .cache xs.length g (some sets)) ::ₘ
      (sets, .sets (xs.map fun x => some x.1)) ::ₘ (setsBlocks (xs.drop i) + F))) :
    ∃ h', dropSet sets i h = some h' ∧ Holds h' ((cache, .cache xs.length g (some sets)) ::ₘ
      (sets, .sets (xs.map fun x => some x.1)) ::ₘ (setsBlocks (xs.drop (i + 1)) + F)) := by
  have hdrop : setsBlocks (xs.drop i) = setBlocks xs[i] + setsBlocks (xs.drop (i + 1)) := by
    rw [List.drop_eq_getElem_cons hi]
    exact setsBlocks_middle [] _ _
  have hptr := hh
  rw [Multiset.cons_swap] at hptr
  have hat := setAt_eq (i := i) hptr
  rw [List.getElem?_eq_getElem hi, Option.map_some] at hat
  have hh' : Holds h (setBlocks xs[i] + ((cache, .cache xs.length g (some sets)) ::ₘ
      (sets, .sets (xs.map fun x => some x.1)) ::ₘ (setsBlocks (xs.drop (i + 1)) + F))) := by
    refine hh.trans ?_
    rw [hdrop]
    simp only [← Multiset.singleton_add]
    abel
  obtain ⟨h', hdestroy, hh''⟩ := setDestroy_spec hh'
  exact ⟨h', by rw [dropSet, hat, Option.bind_some, hdestroy], hh''⟩

/-- `Cache_destroy` frees everything that a cache owns. -/
theorem cacheDestroy_spec {xs : List (ℕ × ℕ × List Line)}
    (hh : Holds h (cacheBlocks cache sets g xs + F)) :
    ∃ h', cacheDestroy h cache = some h' ∧ Holds h' F := by
  rw [cacheBlocks, Multiset.cons_add, Multiset.cons_add] at hh
  obtain ⟨h₁, hloop, hh₁⟩ := @ForLoop.exec_spec _ (dropSet sets) xs.length 0 h
    (fun i h => Holds h ((cache, .cache xs.length g (some sets)) ::ₘ
      (sets, .sets (xs.map fun x => some x.1)) ::ₘ (setsBlocks (xs.drop i) + F)))
    (fun i h _ hi => dropSet_spec (by omega)) hh
  rw [Nat.zero_add, List.drop_length, setsBlocks, List.map_nil, List.sum_nil, zero_add,
    Multiset.cons_swap] at hh₁
  obtain ⟨h₂, hfree₂, hh₂⟩ := hh₁.free
  obtain ⟨h₃, hfree₃, hh₃⟩ := hh₂.free
  refine ⟨h₃, ?_, hh₃⟩
  rw [cacheDestroy, hh.load, Option.bind_some]
  dsimp only
  rw [hloop, Option.bind_some, hfree₂, Option.bind_some, hfree₃]

/-- `csim` prints what it prints with a list of sets for the cache, and goes wrong only where
that is undefined. At its end the memory in use is what was in use before. -/
theorem main_memory (A : Allocator) (rule : IntRule) (s E b : ℕ) (tr : CStr) (h : Heap Block) :
    Option.Rel (fun r out => r.1 = out ∧ Holds r.2 h.blocks) (main A rule s E b tr h)
      (Csim.main rule s E b tr) := by
  rw [main, Csim.main]
  split_ifs with hs
  · obtain ⟨cache, sets, xs, h₁, hcreate, hxs, hh₁⟩ := cacheCreate_spec A s E b (holds_self h)
    have hload : h₁.load cache = some (.cache xs.length (geometry s b) (some sets)) := by
      have hh := hh₁
      rw [cacheBlocks, Multiset.cons_add] at hh
      exact hh.load
    have hrep : Rep cache (geometry s b) h.blocks ⟨h₁, 0, 0, 0⟩
        ⟨Csim.cacheCreate (2 ^ s) E, 0, 0, 0⟩ :=
      ⟨⟨sets, xs, hh₁, hxs.symm⟩, rfl, rfl, rfl⟩
    rw [hcreate, Option.bind_some, simulate, hload, Option.bind_some, simulateFile,
      Option.map_eq_bind]
    refine ForLoop.rel_bind (readTrace_rel (fun _ _ _ => access_rel intMax) hrep tr) ?_
    rintro st sim ⟨⟨sets', ys, hh₂, -⟩, hu, hv, hw⟩
    obtain ⟨h₃, hdestroy, hh₃⟩ := cacheDestroy_spec hh₂
    rw [hdestroy]
    exact .some ⟨by rw [hu, hv, hw], hh₃⟩
  · exact .none

end Memory

end Csim

end ClassProjects
