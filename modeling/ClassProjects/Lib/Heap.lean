import Mathlib.Algebra.Order.Group.Multiset
import Mathlib.Data.Multiset.Filter
import Mathlib.Tactic.Abel

/-!
# Blocks in memory

A heap is the blocks that are allocated, each with its address. An access to any other
address goes wrong (`none`), and so does a block that is freed twice. `malloc` returns any
address that is not in use, one that was freed before as well (`Allocator`).

`Holds h s` says that the allocated blocks are those of the multiset `s`. So `b ::ₘ s` is a
block and what is around it, which no operation on the block changes.

The nodes of a linked list are blocks with a field `next` (`Linked`). `chain` is what a list
owns : its nodes, and what each of them owns (`Node`), which may be lists again. The loops
along `next` are `lastNode`, `nodes` and `freeNodes`, and `addNode` puts a node behind the
last one.
-/

/-- The allocated blocks. -/
structure Heap (β : Type*) where
  blocks : List (ℕ × β)
  nodup : (blocks.map Prod.fst).Nodup

namespace Heap

variable {β τ : Type*}

/-- How `malloc` chooses an address. -/
structure Allocator where
  fresh : List ℕ → ℕ
  fresh_notMem : ∀ l, fresh l ∉ l

/-- An address above all that are in use. -/
def Allocator.above : Allocator where
  fresh l := l.foldr max 0 + 1
  fresh_notMem l hmem := by
    have hle : ∀ (l : List ℕ) (a : ℕ), a ∈ l → a ≤ l.foldr max 0 := by
      intro l a ha
      induction l with
      | nil => cases ha
      | cons x l ih =>
        rw [List.foldr_cons]
        rcases List.mem_cons.1 ha with rfl | ha
        · exact Nat.le_max_left _ _
        · exact (ih ha).trans (Nat.le_max_right _ _)
    exact absurd (hle l _ hmem) (Nat.not_succ_le_self _)

/-- `*a`. -/
def load (h : Heap β) (a : ℕ) : Option β :=
  (h.blocks.find? (·.1 = a)).map Prod.snd

theorem nodup_map_snd {l : List (ℕ × β)} (h : (l.map Prod.fst).Nodup) (a : ℕ) (b : β) :
    ((l.map fun x => if x.1 = a then (x.1, b) else x).map Prod.fst).Nodup := by
  have hfst : (Prod.fst ∘ fun x : ℕ × β => if x.1 = a then (x.1, b) else x) = Prod.fst := by
    funext x
    rw [Function.comp_apply]
    split_ifs <;> rfl
  rwa [List.map_map, hfst]

/-- `*a = b`. -/
def store (h : Heap β) (a : ℕ) (b : β) : Option (Heap β) :=
  (h.load a).map fun _ =>
    ⟨h.blocks.map fun x => if x.1 = a then (x.1, b) else x, nodup_map_snd h.nodup a b⟩

/-- `free(a)`. -/
def free (h : Heap β) (a : ℕ) : Option (Heap β) :=
  (h.load a).map fun _ =>
    ⟨h.blocks.filter (·.1 ≠ a), (List.filter_sublist.map Prod.fst).nodup h.nodup⟩

/-- Change the block of `a`. -/
def update (h : Heap β) (a : ℕ) (f : β → Option β) : Option (Heap β) :=
  (h.load a).bind fun b => (f b).bind (h.store a)

/-- `malloc`, and the assignment to the new block. -/
def malloc (A : Allocator) (h : Heap β) (b : β) : ℕ × Heap β :=
  (A.fresh (h.blocks.map Prod.fst), ⟨(A.fresh (h.blocks.map Prod.fst), b) :: h.blocks,
    List.nodup_cons.2 ⟨A.fresh_notMem _, h.nodup⟩⟩)

/-- The allocated blocks are those of `s`. -/
def Holds (h : Heap β) (s : Multiset (ℕ × β)) : Prop :=
  (h.blocks : Multiset (ℕ × β)) = s

variable {h : Heap β} {s F : Multiset (ℕ × β)} {a p : ℕ} {b b' : β}

theorem holds_self (h : Heap β) : Holds h h.blocks :=
  rfl

/-! ## The operations on a block -/

theorem Holds.notMem (hh : Holds h ((a, b) ::ₘ F)) : ∀ x ∈ F, x.1 ≠ a := by
  have hnodup : (((a, b) ::ₘ F).map Prod.fst).Nodup := by
    rw [← hh, Multiset.map_coe, Multiset.coe_nodup]
    exact h.nodup
  rw [Multiset.map_cons, Multiset.nodup_cons] at hnodup
  intro x hx he
  refine hnodup.1 (Multiset.mem_map.2 ⟨x, hx, he⟩)

theorem Holds.load (hh : Holds h ((a, b) ::ₘ F)) : h.load a = some b := by
  have hmem : (a, b) ∈ h.blocks := by
    rw [← Multiset.mem_coe, hh]
    exact Multiset.mem_cons_self _ _
  cases hf : h.blocks.find? (·.1 = a) with
  | none => simpa using List.find?_eq_none.1 hf _ hmem
  | some x =>
    obtain ⟨a', b'⟩ := x
    have ha' : a' = a := by simpa using List.find?_some hf
    subst ha'
    have hx := List.mem_of_find?_eq_some hf
    rw [← Multiset.mem_coe, hh, Multiset.mem_cons] at hx
    rcases hx with hx | hx
    · rw [Heap.load, hf, ← (Prod.mk.inj hx).2]
      rfl
    · exact absurd rfl (hh.notMem _ hx)

theorem Holds.store (hh : Holds h ((a, b) ::ₘ F)) (b' : β) :
    ∃ h', h.store a b' = some h' ∧ Holds h' ((a, b') ::ₘ F) := by
  refine ⟨_, by rw [Heap.store, hh.load, Option.map_some], ?_⟩
  have hF : F.map (fun x => if x.1 = a then (x.1, b') else x) = F := by
    rw [Multiset.map_congr rfl fun x hx => if_neg (hh.notMem x hx), Multiset.map_id']
  rw [Holds, ← Multiset.map_coe, hh, Multiset.map_cons, hF, if_pos rfl]

theorem Holds.update {f : β → Option β} (hh : Holds h ((a, b) ::ₘ F)) (hf : f b = some b') :
    ∃ h', h.update a f = some h' ∧ Holds h' ((a, b') ::ₘ F) := by
  obtain ⟨h', hstore, hh'⟩ := hh.store b'
  exact ⟨h', by rw [Heap.update, hh.load, Option.bind_some, hf, Option.bind_some, hstore], hh'⟩

theorem Holds.update_none {f : β → Option β} (hh : Holds h ((a, b) ::ₘ F)) (hf : f b = none) :
    h.update a f = none := by
  rw [Heap.update, hh.load, Option.bind_some, hf, Option.bind_none]

theorem Holds.free (hh : Holds h ((a, b) ::ₘ F)) : ∃ h', h.free a = some h' ∧ Holds h' F := by
  refine ⟨_, by rw [Heap.free, hh.load, Option.map_some], ?_⟩
  have hF : F.filter (fun x => x.1 ≠ a) = F := Multiset.filter_eq_self.2 fun x hx => hh.notMem x hx
  rw [Holds, ← Multiset.filter_coe, hh, Multiset.filter_cons_of_neg _ (by simp), hF]

theorem Holds.malloc (A : Allocator) (hh : Holds h F) (b : β) :
    Holds (h.malloc A b).2 (((h.malloc A b).1, b) ::ₘ F) := by
  rw [Holds, ← hh]
  rfl

theorem Holds.card_le (hh : Holds h (s + F)) : s.card ≤ h.blocks.length := by
  rw [← Multiset.coe_card, hh, Multiset.card_add]
  exact Nat.le_add_right _ _

/-! ## Linked lists -/

/-- Blocks that have a field `next`, at least some of them. -/
class Linked (β : Type*) where
  next : β → Option (Option ℕ)
  setNext : β → Option ℕ → β

variable [Linked β]

/-- The nodes of a kind of list : the block of a node, and what it owns besides. -/
structure Node (β τ : Type*) [Linked β] where
  block : τ → Option ℕ → β
  own : τ → Multiset (ℕ × β)
  next_block : ∀ t n, Linked.next (block t n) = some n
  setNext_block : ∀ t n n', Linked.setNext (block t n) n' = block t n'

/-- The pointer to the first node of a list that ends in `tail`. -/
def first : List (ℕ × τ) → Option ℕ → Option ℕ
  | [], tail => tail
  | x :: _, _ => some x.1

/-- What the nodes of a list that ends in `tail` own. -/
def Node.segment (N : Node β τ) : List (ℕ × τ) → Option ℕ → Multiset (ℕ × β)
  | [], _ => 0
  | x :: xs, tail => (x.1, N.block x.2 (first xs tail)) ::ₘ (N.own x.2 + N.segment xs tail)

/-- What a list owns. -/
abbrev Node.chain (N : Node β τ) (xs : List (ℕ × τ)) : Multiset (ℕ × β) :=
  N.segment xs none

/-- `while (p) { if (!p->next) break; p = p->next; }`, from a node. -/
def lastNode : ℕ → Heap β → ℕ → Option ℕ
  | 0, _, _ => none
  | fuel + 1, h, p =>
    ((h.load p).bind Linked.next).bind fun
      | none => some p
      | some q => lastNode fuel h q

/-- Put a node behind the last one, if there is one. The result is the first node. -/
def addNode (h : Heap β) (p : Option ℕ) (x : ℕ) : Option (Option ℕ × Heap β) :=
  match p with
  | none => some (some x, h)
  | some p =>
    (lastNode h.blocks.length h p).bind fun q =>
      (h.load q).bind fun b =>
        (h.store q (Linked.setNext b (some x))).map fun h => (some p, h)

/-- The nodes that `while (p) p = p->next;` goes through. -/
def nodes : ℕ → Heap β → Option ℕ → Option (List ℕ)
  | _, _, none => some []
  | 0, _, some _ => none
  | fuel + 1, h, some p =>
    ((h.load p).bind Linked.next).bind fun n => (nodes fuel h n).map (p :: ·)

/-- `while (p) { temp = p->next; destroy(p); p = temp; }`. -/
def freeNodes (destroy : Heap β → ℕ → Option (Heap β)) : ℕ → Heap β → Option ℕ → Option (Heap β)
  | _, h, none => some h
  | 0, _, some _ => none
  | fuel + 1, h, some p =>
    ((h.load p).bind Linked.next).bind fun temp =>
      (destroy h p).bind fun h => freeNodes destroy fuel h temp

variable {N : Node β τ} {xs ys : List (ℕ × τ)} {x : ℕ × τ} {tail : Option ℕ} {fuel : ℕ}

theorem Node.segment_append (N : Node β τ) (xs ys : List (ℕ × τ)) (tail : Option ℕ) :
    N.segment (xs ++ ys) tail = N.segment xs (first ys tail) + N.segment ys tail := by
  induction xs with
  | nil => rw [List.nil_append, segment, zero_add]
  | cons x xs ih =>
    have hfirst : first (xs ++ ys) tail = first xs (first ys tail) := by cases xs <;> rfl
    rw [List.cons_append, segment, segment, ih, hfirst, Multiset.cons_add, add_assoc]

theorem Node.length_le (N : Node β τ) (xs : List (ℕ × τ)) (tail : Option ℕ) :
    xs.length ≤ (N.segment xs tail).card := by
  induction xs with
  | nil => exact Nat.zero_le _
  | cons x xs ih =>
    rw [segment, Multiset.card_cons, Multiset.card_add, List.length_cons]
    omega

/-- A node, and what is around it. -/
theorem Node.chain_middle (N : Node β τ) (xs : List (ℕ × τ)) (x : ℕ × τ) (ys : List (ℕ × τ))
    (F : Multiset (ℕ × β)) : N.chain (xs ++ x :: ys) + F = (x.1, N.block x.2 (first ys none)) ::ₘ
      (N.segment xs (some x.1) + N.own x.2 + N.chain ys + F) := by
  simp only [chain, segment_append, segment, first, ← Multiset.singleton_add]
  abel

/-- The loop from a node ends at the last one. -/
theorem lastNode_eq (ys : List (ℕ × τ)) (hh : Holds h (N.chain (ys ++ xs ++ [x]) + F))
    (hfuel : xs.length < fuel) {p : ℕ} (hp : first (xs ++ [x]) none = some p) :
    lastNode fuel h p = some x.1 := by
  induction xs generalizing ys fuel p with
  | nil =>
    obtain ⟨fuel, rfl⟩ : ∃ f, fuel = f + 1 := ⟨fuel - 1, by omega⟩
    obtain rfl : x.1 = p := Option.some.inj hp
    rw [List.append_nil, N.chain_middle] at hh
    rw [lastNode, hh.load, Option.bind_some, N.next_block, Option.bind_some]
    rfl
  | cons y xs ih =>
    obtain ⟨fuel, rfl⟩ : ∃ f, fuel = f + 1 := ⟨fuel - 1, by omega⟩
    obtain rfl : y.1 = p := Option.some.inj hp
    have hnext : ∃ q, first (xs ++ [x]) none = some q := by cases xs <;> exact ⟨_, rfl⟩
    obtain ⟨q, hq⟩ := hnext
    have hsplit : ys ++ (y :: xs) ++ [x] = ys ++ y :: (xs ++ [x]) := by simp
    have hrest := ih (ys ++ [y]) (by simpa using hh) (by simpa using hfuel) hq
    rw [hsplit, N.chain_middle] at hh
    rw [lastNode, hh.load, Option.bind_some, N.next_block, Option.bind_some, hq]
    exact hrest

/-- A node that is put behind the last one is the last one. -/
theorem Holds.addNode
    (hh : Holds h (N.chain xs + ((x.1, N.block x.2 none) ::ₘ (N.own x.2 + F)))) :
    ∃ h', Heap.addNode h (first xs none) x.1 = some (first (xs ++ [x]) none, h') ∧
      Holds h' (N.chain (xs ++ [x]) + F) := by
  rcases List.eq_nil_or_concat xs with rfl | ⟨ys, y, rfl⟩
  · refine ⟨h, rfl, hh.trans ?_⟩
    simp only [Node.chain, List.nil_append, Node.segment, first, ← Multiset.singleton_add]
    abel
  · rw [List.concat_eq_append] at hh ⊢
    have hp : ∃ p, first (ys ++ [y]) none = some p := by cases ys <;> exact ⟨_, rfl⟩
    obtain ⟨p, hp⟩ := hp
    have hfirst : first (ys ++ [y] ++ [x]) none = some p := by
      rw [← hp]
      cases ys <;> rfl
    have hfuel : ys.length < h.blocks.length := by
      have hle := (N.length_le (ys ++ [y]) none).trans hh.card_le
      rw [List.length_append, List.length_singleton] at hle
      omega
    have hlast := lastNode_eq [] hh hfuel hp
    rw [N.chain_middle] at hh
    obtain ⟨h', hstore, hh'⟩ := hh.store (N.block y.2 (some x.1))
    refine ⟨h', ?_, hh'.trans ?_⟩
    · rw [hp, hfirst]
      simp only [Heap.addNode, hlast, Option.bind_some, hh.load, N.setNext_block, hstore,
        Option.map_some]
    · simp only [Node.chain, Node.segment_append, Node.segment, first, ← Multiset.singleton_add]
      abel

/-- The nodes of a list are read in order. -/
theorem Holds.nodes (ys : List (ℕ × τ)) (hh : Holds h (N.chain (ys ++ xs) + F))
    (hfuel : xs.length ≤ fuel) :
    Heap.nodes fuel h (first xs none) = some (xs.map Prod.fst) := by
  induction xs generalizing ys fuel with
  | nil => cases fuel <;> rfl
  | cons x xs ih =>
    obtain ⟨fuel, rfl⟩ : ∃ f, fuel = f + 1 := ⟨fuel - 1, by simp at hfuel; omega⟩
    have hrest := ih (ys ++ [x]) (by simpa using hh) (by simpa using hfuel)
    rw [N.chain_middle] at hh
    rw [first, Heap.nodes, hh.load, Option.bind_some, N.next_block, Option.bind_some, hrest]
    rfl

/-- If `destroy` frees a node with what it owns, the loop frees the list. -/
theorem Holds.freeNodes {destroy : Heap β → ℕ → Option (Heap β)}
    (hd : ∀ (h : Heap β) (a : ℕ) (t : τ) (n : Option ℕ) (F : Multiset (ℕ × β)),
      Holds h ((a, N.block t n) ::ₘ (N.own t + F)) → ∃ h', destroy h a = some h' ∧ Holds h' F)
    (hh : Holds h (N.chain xs + F)) (hfuel : xs.length ≤ fuel) :
    ∃ h', Heap.freeNodes destroy fuel h (first xs none) = some h' ∧ Holds h' F := by
  induction xs generalizing h fuel with
  | nil => exact ⟨h, by cases fuel <;> rfl, by simpa [Node.chain, Node.segment] using hh⟩
  | cons x xs ih =>
    obtain ⟨fuel, rfl⟩ : ∃ f, fuel = f + 1 := ⟨fuel - 1, by simp at hfuel; omega⟩
    rw [Node.chain, Node.segment, Multiset.cons_add, add_assoc] at hh
    obtain ⟨h₁, hfree, hh₁⟩ := hd h x.1 x.2 _ _ hh
    obtain ⟨h', hrest, hh'⟩ := ih hh₁ (by simpa using hfuel)
    refine ⟨h', ?_, hh'⟩
    rw [first, Heap.freeNodes, hh.load, Option.bind_some, N.next_block, Option.bind_some, hfree,
      Option.bind_some, hrest]

/-- The first node of a list that is owned. -/
theorem Holds.load_first {y : ℕ × β} (hh : Holds h (y ::ₘ (N.chain (x :: xs) + F))) :
    h.load x.1 = some (N.block x.2 (first xs none)) := by
  refine Holds.load (F := y ::ₘ (N.own x.2 + N.chain xs + F)) (hh.trans ?_)
  simp only [Node.chain, Node.segment, ← Multiset.singleton_add]
  abel

/-! ## Lists of lists -/

/-- Blocks that have a field for the first node of a list, and are nodes themselves. -/
structure Owner (β : Type*) [Linked β] where
  block : Option ℕ → Option ℕ → β
  list : β → Option (Option ℕ)
  setList : β → Option ℕ → β
  list_block : ∀ p n, list (block p n) = some p
  setList_block : ∀ p n p', setList (block p n) p' = block p' n
  next_block : ∀ p n, Linked.next (block p n) = some n
  setNext_block : ∀ p n n', Linked.setNext (block p n) n' = block p n'

/-- A node that owns a list. -/
def Owner.node (O : Owner β) (N : Node β τ) : Node β (List (ℕ × τ)) where
  block xs n := O.block (first xs none) n
  own := N.chain
  next_block _ := O.next_block _
  setNext_block _ := O.setNext_block _

/-- Put a node behind the last one of the list of `a`. -/
def Owner.add (O : Owner β) (h : Heap β) (x a : ℕ) : Option (Heap β) :=
  (h.load a).bind fun b =>
    (O.list b).bind fun p =>
      (addNode h p x).bind fun r =>
        if p = none then r.2.store a (O.setList b r.1) else some r.2

/-- Free the list of `a`, and `a`. -/
def Owner.destroy (O : Owner β) (destroy : Heap β → ℕ → Option (Heap β)) (h : Heap β) (a : ℕ) :
    Option (Heap β) :=
  ((h.load a).bind O.list).bind fun p =>
    (freeNodes destroy h.blocks.length h p).bind fun h => h.free a

variable {O : Owner β} {n : Option ℕ}

/-- The list of a node. -/
theorem Holds.list (hh : Holds h ((a, (O.node N).block xs n) ::ₘ F)) :
    (h.load a).bind O.list = some (first xs none) := by
  rw [hh.load, Option.bind_some]
  exact O.list_block _ _

/-- What is added to the list of a node is its last node. -/
theorem Holds.add (hh : Holds h ((a, (O.node N).block xs n) ::ₘ
    (N.chain xs + ((x.1, N.block x.2 none) ::ₘ (N.own x.2 + F))))) :
    ∃ h', O.add h x.1 a = some h' ∧
      Holds h' ((a, (O.node N).block (xs ++ [x]) n) ::ₘ (N.chain (xs ++ [x]) + F)) := by
  have hload := hh.load
  have hh₁ : Holds h (N.chain xs + ((x.1, N.block x.2 none) ::ₘ
      (N.own x.2 + ((a, (O.node N).block xs n) ::ₘ F)))) := by
    refine hh.trans ?_
    simp only [← Multiset.singleton_add]
    abel
  obtain ⟨h₁, hadd, hh₁⟩ := hh₁.addNode
  rw [Multiset.add_cons] at hh₁
  have hO : O.add h x.1 a = if first xs none = none then
      h₁.store a (O.block (first (xs ++ [x]) none) n) else some h₁ := by
    simp only [Owner.add, hload, Owner.node, Option.bind_some, O.list_block, hadd,
      O.setList_block]
  rw [hO]
  split_ifs with hfirst
  · exact hh₁.store _
  · refine ⟨h₁, rfl, ?_⟩
    have hsame : first (xs ++ [x]) none = first xs none := by
      cases xs with
      | nil => exact absurd rfl hfirst
      | cons y xs => rfl
    have hblock : (O.node N).block (xs ++ [x]) n = (O.node N).block xs n :=
      congrArg (O.block · n) hsame
    rwa [hblock]

/-- A node that owns a list is freed with it. -/
theorem Holds.destroy {destroy : Heap β → ℕ → Option (Heap β)}
    (hd : ∀ (h : Heap β) (a : ℕ) (t : τ) (n : Option ℕ) (F : Multiset (ℕ × β)),
      Holds h ((a, N.block t n) ::ₘ (N.own t + F)) → ∃ h', destroy h a = some h' ∧ Holds h' F)
    (hh : Holds h ((a, (O.node N).block xs n) ::ₘ ((O.node N).own xs + F))) :
    ∃ h', O.destroy destroy h a = some h' ∧ Holds h' F := by
  have hlist := hh.list
  have hh₁ : Holds h (N.chain xs + ((a, (O.node N).block xs n) ::ₘ F)) := by
    rw [Multiset.add_cons]
    exact hh
  obtain ⟨h₁, hfree, hh₁⟩ := hh₁.freeNodes hd ((N.length_le xs none).trans hh₁.card_le)
  obtain ⟨h', hfree', hh'⟩ := hh₁.free
  refine ⟨h', ?_, hh'⟩
  rw [Owner.destroy, hlist, Option.bind_some, hfree, Option.bind_some, hfree']

end Heap
