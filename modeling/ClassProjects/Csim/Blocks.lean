import ClassProjects.Csim.Lru
import ClassProjects.Lib.Reuse

/-!
# The counts, from the history of blocks

What the reference counts, without its recency lists. A history is the list of the blocks
accessed so far, the last first. A block's set is its number modulo the number of sets, and
the rest of the number is its tag. An access is a hit if the block was accessed before and
less than `E` other blocks of its set since (`Hits`), and it evicts if it is no hit and `E`
blocks of the set were accessed before (`Displaces`). No state of a cache is left in that.

The recency list of each set is the beginning of the stack of what the set has seen
(`Follows`), so every access meets in it what the history says.
-/

namespace ClassProjects

namespace Csim

open Recency

variable {s E i blk : ℕ} {h : List ℕ} {c : Reference}

/-- What the set `i` has seen of a history. -/
def seen (s : ℕ) (h : List ℕ) (i : ℕ) : List ℕ :=
  h.filter fun blk => blk % 2 ^ s = i

/-- The block was accessed, and less than `E` other blocks of its set since. -/
def Hits (s E : ℕ) (h : List ℕ) (blk : ℕ) : Prop :=
  Reused E (seen s h (blk % 2 ^ s)) blk

/-- No hit, and `E` blocks of the set were accessed before. -/
def Displaces (s E : ℕ) (h : List ℕ) (blk : ℕ) : Prop :=
  ¬Hits s E h blk ∧ E ≤ (seen s h (blk % 2 ^ s)).dedup.length

instance : DecidablePred (Hits s E h) :=
  fun _ => inferInstanceAs (Decidable (Reused _ _ _))

instance : DecidablePred (Displaces s E h) :=
  fun _ => inferInstanceAs (Decidable (_ ∧ _))

/-- How many accesses of a history are such that `P` holds of them and of what was before. -/
def countOf (P : List ℕ → ℕ → Prop) [∀ h, DecidablePred (P h)] : List ℕ → ℕ
  | [] => 0
  | blk :: h => countOf P h + if P h blk then 1 else 0

/-- The tag of a block. -/
def blockTag (s blk : ℕ) : UInt64 :=
  UInt64.ofNat (blk / 2 ^ s)

/-- The blocks that an operation accesses, the last first. -/
def touches (op : Op) (blk : ℕ) : List ℕ :=
  match op with
  | .I => []
  | .L => [blk]
  | .S => [blk]
  | .M => [blk, blk]

/-- The history of a trace of operations on blocks. -/
def history (refs : List (Op × ℕ)) : List ℕ :=
  refs.foldl (fun h r => touches r.1 r.2 ++ h) []

/-- An operation on a block, by the set and the tag of the block. -/
def blockAccess (s : ℕ) (r : Op × ℕ) : Access :=
  ⟨r.1, r.2 % 2 ^ s, blockTag s r.2⟩

/-- Blocks whose tag has 64 bits. -/
def Narrow (s : ℕ) (h : List ℕ) : Prop :=
  ∀ blk ∈ h, blk / 2 ^ s < 2 ^ 64

/-! ## The reference follows the history -/

/-- In a set, blocks with different numbers have different tags. -/
theorem blockTag_inj {x y : ℕ} (hx : x / 2 ^ s < 2 ^ 64) (hy : y / 2 ^ s < 2 ^ 64)
    (hset : x % 2 ^ s = y % 2 ^ s) (h : blockTag s x = blockTag s y) : x = y := by
  have hdiv : x / 2 ^ s = y / 2 ^ s := by
    have hnat := congrArg UInt64.toNat h
    rwa [blockTag, blockTag, UInt64.toNat_ofNat', UInt64.toNat_ofNat', Nat.mod_eq_of_lt hx,
      Nat.mod_eq_of_lt hy] at hnat
  rw [← Nat.div_add_mod x (2 ^ s), ← Nat.div_add_mod y (2 ^ s), hdiv, hset]

/-- The reference has the recency lists and the counts of a history. -/
structure Follows (s E : ℕ) (c : Reference) (h : List ℕ) : Prop where
  tags : ∀ i, c.tags i = ((stack (seen s h i)).take E).map (blockTag s)
  hits : c.hits = countOf (Hits s E) h
  total : c.hits + c.misses = h.length
  evictions : c.evictions = countOf (Displaces s E) h

theorem follows_empty : Follows s E .empty [] where
  tags i := by
    have hstack : stack (seen s [] i) = [] := rfl
    rw [hstack, List.take_nil]
    rfl
  hits := rfl
  total := rfl
  evictions := rfl

/-- An access of a block meets in its recency list what the history says. -/
theorem Follows.outcome (hf : Follows s E c h) (hn : Narrow s (blk :: h)) :
    (Recency.outcome E (c.tags (blk % 2 ^ s)) (blockTag s blk) = .hit ↔ Hits s E h blk) ∧
      (Recency.outcome E (c.tags (blk % 2 ^ s)) (blockTag s blk) = .evict ↔
        Displaces s E h blk) ∧
      Recency.access E (c.tags (blk % 2 ^ s)) (blockTag s blk) =
        (Recency.access E ((stack (seen s h (blk % 2 ^ s))).take E) blk).map (blockTag s) := by
  have hinj : ∀ x ∈ (stack (seen s h (blk % 2 ^ s))).take E,
      blockTag s x = blockTag s blk → x = blk := by
    intro x hx
    obtain ⟨hmem, hset⟩ := List.mem_filter.1 (mem_stack.1 (List.mem_of_mem_take hx))
    exact blockTag_inj (hn x (List.mem_cons_of_mem blk hmem)) (hn blk List.mem_cons_self)
      (of_decide_eq_true hset)
  rw [hf.tags, outcome_map hinj, access_map hinj]
  exact ⟨outcome_stack_eq_hit, outcome_stack_eq_evict, rfl⟩

theorem Follows.access (hE : 0 < E) (hf : Follows s E c h) (hn : Narrow s (blk :: h)) :
    Follows s E (c.access E (blk % 2 ^ s) (blockTag s blk)) (blk :: h) := by
  obtain ⟨hhit, hevict, hacc⟩ := hf.outcome hn
  refine ⟨fun i => ?_, ?_, ?_, ?_⟩
  · simp only [Reference.access, Function.update_apply]
    split_ifs with hi
    · have hseen : seen s (blk :: h) i = blk :: seen s h i :=
        List.filter_cons_of_pos (decide_eq_true hi.symm)
      rw [hacc, access_stack hE, ← hi, hseen]
    · have hseen : seen s (blk :: h) i = seen s h i :=
        List.filter_cons_of_neg (by simpa using Ne.symm hi)
      rw [hseen, hf.tags i]
  · simp only [Reference.access, hhit, countOf, ← hf.hits]
    split_ifs <;> rfl
  · have htotal := hf.total
    simp only [Reference.access, List.length_cons]
    split_ifs <;> omega
  · simp only [Reference.access, hevict, countOf, ← hf.evictions]
    split_ifs <;> rfl

theorem eq_of_mem_touches {op : Op} (hmem : i ∈ touches op blk) : i = blk := by
  cases op with
  | I => cases hmem
  | L | S => exact List.mem_singleton.1 hmem
  | M => simpa [touches] using hmem

theorem Follows.perform (hE : 0 < E) (r : Op × ℕ) (hf : Follows s E c h)
    (hn : Narrow s (touches r.1 r.2 ++ h)) :
    Follows s E (c.perform E (blockAccess s r)) (touches r.1 r.2 ++ h) := by
  obtain ⟨op, blk⟩ := r
  cases op with
  | I => exact hf
  | L => exact hf.access hE hn
  | S => exact hf.access hE hn
  | M => exact (hf.access hE fun x hx => hn x (List.mem_cons_of_mem blk hx)).access hE hn

theorem Follows.run (hE : 0 < E) (refs : List (Op × ℕ)) (hf : Follows s E c h)
    (hn : Narrow s h) (hr : ∀ r ∈ refs, r.2 / 2 ^ s < 2 ^ 64) :
    Follows s E ((refs.map (blockAccess s)).foldl (Reference.perform E) c)
      (refs.foldl (fun h r => touches r.1 r.2 ++ h) h) := by
  induction refs generalizing c h with
  | nil => exact hf
  | cons r refs ih =>
    have hn' : Narrow s (touches r.1 r.2 ++ h) := by
      intro blk hblk
      rcases List.mem_append.1 hblk with hblk | hblk
      · exact eq_of_mem_touches hblk ▸ hr r List.mem_cons_self
      · exact hn blk hblk
    exact ih (hf.perform hE r hn') hn' fun r' hr' => hr r' (List.mem_cons_of_mem r hr')

/-- The reference counts what the history says. -/
theorem follows_run (hE : 0 < E) (refs : List (Op × ℕ))
    (hr : ∀ r ∈ refs, r.2 / 2 ^ s < 2 ^ 64) :
    Follows s E (Reference.run E (refs.map (blockAccess s))) (history refs) :=
  follows_empty.run hE refs (fun _ hblk => absurd hblk List.not_mem_nil) hr

end Csim

end ClassProjects
