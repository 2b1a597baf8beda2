import Mathlib.Data.List.Basic
import Mathlib.Data.List.Nodup
import Mathlib.Tactic.Common

/-!
# Linked lists whose nodes have addresses

A list behind a sentinel, each node a value and its address. A pointer into the list is
`none` for the sentinel and `some a` for the node at `a`, and `cut` splits the list behind
it. `link` and `unlink` are the assignments `p->next = x` and `p->next = q->next` : they
drop every node between, whether or not the caller knows of it. A pointer to a node that
is not in the list has no effect on the list (`none`).

`cut_last` and `eq_of_cut` say that with distinct addresses `cut p` is the split at the
node `p` points to.
-/

namespace NodeList

variable {α : Type*}

/-- The address of the last node, the sentinel's if there is none. -/
def last (l : List (α × ℕ)) : Option ℕ :=
  l.getLast?.map Prod.snd

/-- The nodes up to the one pointed to, and those behind it. -/
def cut : Option ℕ → List (α × ℕ) → Option (List (α × ℕ) × List (α × ℕ))
  | none, l => some ([], l)
  | some _, [] => none
  | some a, x :: l =>
    if x.2 = a then some ([x], l) else (cut (some a) l).map fun r => (x :: r.1, r.2)

/-- `p->next = x`, with `x` the last node of its own list. -/
def link (p : Option ℕ) (x : α × ℕ) (l : List (α × ℕ)) : Option (List (α × ℕ)) :=
  (cut p l).map fun r => r.1 ++ [x]

/-- `p->next = q->next`. -/
def unlink (p : Option ℕ) (q : ℕ) (l : List (α × ℕ)) : Option (List (α × ℕ)) :=
  (cut p l).bind fun r => (cut (some q) l).map fun r' => r.1 ++ r'.2

variable {l m b t : List (α × ℕ)} {x : α × ℕ} {p : Option ℕ} {a : ℕ}

@[simp] theorem last_nil : last ([] : List (α × ℕ)) = none :=
  rfl

@[simp] theorem last_append_singleton : last (l ++ [x]) = some x.2 := by
  simp [last]

theorem last_eq_none : last l = none ↔ l = [] := by
  simp [last]

/-- The last node is in the list. -/
theorem mem_of_last (h : last l = some a) : a ∈ l.map Prod.snd := by
  obtain ⟨x, hx, rfl⟩ := Option.map_eq_some_iff.1 h
  exact List.mem_map_of_mem (List.mem_of_getLast? hx)

/-- With addresses in list order, none is above the last node's. -/
theorem le_last (hl : (l.map Prod.snd).Pairwise (· < ·)) (hx : x ∈ l) :
    ∃ a, last l = some a ∧ x.2 ≤ a := by
  rcases List.eq_nil_or_concat l with rfl | ⟨l', y, rfl⟩
  · simp at hx
  · rw [List.concat_eq_append] at hl hx ⊢
    refine ⟨y.2, last_append_singleton, ?_⟩
    rcases List.mem_append.1 hx with hx | hx
    · rw [List.map_append, List.pairwise_append] at hl
      exact Nat.le_of_lt (hl.2.2 _ (List.mem_map_of_mem hx) y.2 (by simp))
    · obtain rfl : x = y := List.mem_singleton.1 hx
      exact Nat.le_refl _

/-! ## The split at a node -/

theorem eq_of_cut (h : cut p l = some (b, t)) : l = b ++ t ∧ last b = p := by
  induction l generalizing b t with
  | nil =>
    cases p with
    | none => simp_all [cut]
    | some a => simp [cut] at h
  | cons y l ih =>
    cases p with
    | none =>
      obtain ⟨rfl, rfl⟩ : [] = b ∧ y :: l = t := by simpa [cut] using h
      exact ⟨rfl, rfl⟩
    | some a =>
      rw [cut] at h
      split_ifs at h with hy
      · obtain ⟨rfl, rfl⟩ : [y] = b ∧ l = t := by simpa using h
        exact ⟨rfl, by simp [last, hy]⟩
      · obtain ⟨⟨b', t'⟩, hc, hbt⟩ := Option.map_eq_some_iff.1 h
        obtain ⟨rfl, rfl⟩ := Prod.mk.inj hbt
        obtain ⟨hl, hlast⟩ := ih hc
        have hne : b' ≠ [] := by
          rintro rfl
          simp at hlast
        refine ⟨by rw [hl, List.cons_append], ?_⟩
        rw [last, List.getLast?_cons_of_ne_nil hne]
        exact hlast

theorem cut_some_eq_none : cut (some a) l = none ↔ a ∉ l.map Prod.snd := by
  induction l with
  | nil => simp [cut]
  | cons y l ih =>
    rw [cut]
    split_ifs with hy
    · simp [hy]
    · have hay : a ≠ y.2 := fun h => hy h.symm
      simpa [hay] using ih

/-- With distinct addresses a list is cut behind any prefix. -/
theorem cut_last (hl : ((b ++ t).map Prod.snd).Nodup) : cut (last b) (b ++ t) = some (b, t) := by
  induction b with
  | nil => simp [cut]
  | cons y b ih =>
    rw [List.cons_append, List.map_cons, List.nodup_cons] at hl
    rcases List.eq_nil_or_concat b with rfl | ⟨b', z, rfl⟩
    · simp [last, cut]
    · rw [List.concat_eq_append] at ih hl ⊢
      have hz : z.2 ∈ (b' ++ [z] ++ t).map Prod.snd := List.mem_map_of_mem (by simp)
      have hne : y.2 ≠ z.2 := fun h => hl.1 (h ▸ hz)
      have hlast : last (y :: (b' ++ [z])) = some z.2 := by
        rw [← List.cons_append, last_append_singleton]
      rw [hlast, List.cons_append, cut, if_neg hne, ← last_append_singleton (l := b'), ih hl.2]
      rfl

/-- Nodes behind the list do not move a cut. -/
theorem cut_append (h : cut p l = some (b, t)) : cut p (l ++ m) = some (b, t ++ m) := by
  induction l generalizing b t with
  | nil =>
    cases p with
    | none =>
      obtain ⟨rfl, rfl⟩ : [] = b ∧ [] = t := by simpa [cut] using h
      simp [cut]
    | some a => simp [cut] at h
  | cons y l ih =>
    cases p with
    | none =>
      obtain ⟨rfl, rfl⟩ : [] = b ∧ y :: l = t := by simpa [cut] using h
      rfl
    | some a =>
      rw [cut] at h
      rw [List.cons_append, cut]
      split_ifs at h ⊢ with hy
      · obtain ⟨rfl, rfl⟩ : [y] = b ∧ l = t := by simpa using h
        rfl
      · obtain ⟨⟨b', t'⟩, hc, hbt⟩ := Option.map_eq_some_iff.1 h
        obtain ⟨rfl, rfl⟩ := Prod.mk.inj hbt
        rw [ih hc]
        rfl

/-- A cut of a list with one more node is one of the list, or behind the new node. -/
theorem cut_append_singleton (h : cut p (l ++ [x]) = some (b, t)) :
    (∃ t', cut p l = some (b, t')) ∨ b = l ++ [x] := by
  cases hc : cut p l with
  | some r =>
    have hbt := h.symm.trans (cut_append (m := [x]) hc)
    obtain ⟨rfl, -⟩ : b = r.1 ∧ t = r.2 ++ [x] := by simpa using hbt
    exact Or.inl ⟨_, rfl⟩
  | none =>
    refine Or.inr ?_
    obtain ⟨hl, hlast⟩ := eq_of_cut h
    rcases List.eq_nil_or_concat t with rfl | ⟨t', y, rfl⟩
    · simpa using hl.symm
    · -- the node the cut is behind would be in the list
      rw [List.concat_eq_append, ← List.append_assoc] at hl
      obtain ⟨rfl, -⟩ := List.append_inj' hl rfl
      cases p with
      | none => simp [cut] at hc
      | some a =>
        refine absurd ?_ (cut_some_eq_none.1 hc)
        rw [List.map_append]
        exact List.mem_append_left _ (mem_of_last hlast)

/-! ## The assignments -/

/-- Behind the last node, the new node is the only change. -/
theorem link_last (hl : (l.map Prod.snd).Nodup) : link (last l) x l = some (l ++ [x]) := by
  have hc : cut (last l) (l ++ []) = some (l, []) := cut_last (by simpa using hl)
  rw [List.append_nil] at hc
  rw [link, hc]
  rfl

theorem unlink_split (hl : ((b ++ x :: t).map Prod.snd).Nodup) :
    unlink (last b) x.2 (b ++ x :: t) = some (b ++ t) := by
  have hx : cut (last (b ++ [x])) (b ++ [x] ++ t) = some (b ++ [x], t) :=
    cut_last (by rwa [← List.append_cons])
  rw [last_append_singleton, ← List.append_cons] at hx
  rw [unlink, cut_last hl, Option.bind_some, hx]
  rfl

/-- The node unlinked and the one behind which it was are in the list. -/
theorem mem_of_unlink (h : unlink p a l = some m) :
    a ∈ l.map Prod.snd ∧ ∀ a' ∈ p, a' ∈ l.map Prod.snd := by
  obtain ⟨r, hp, h⟩ := Option.bind_eq_some_iff.1 h
  obtain ⟨r', ha, -⟩ := Option.map_eq_some_iff.1 h
  refine ⟨?_, fun a' ha' => ?_⟩
  · by_contra hmem
    rw [cut_some_eq_none.2 hmem] at ha
    simp at ha
  · obtain rfl : p = some a' := ha'
    by_contra hmem
    rw [cut_some_eq_none.2 hmem] at hp
    simp at hp

/-- A link behind an earlier node drops the nodes behind that one. -/
theorem length_of_link (h : link p x l = some m) (hp : p ≠ last l) : m.length ≤ l.length := by
  obtain ⟨⟨b, t⟩, hc, rfl⟩ := Option.map_eq_some_iff.1 h
  obtain ⟨rfl, rfl⟩ := eq_of_cut hc
  have ht : t ≠ [] := by
    rintro rfl
    simp at hp
  have := List.length_pos_iff.2 ht
  simp only [List.length_append, List.length_singleton]
  omega

theorem length_link_le (h : link p x l = some m) : m.length ≤ l.length + 1 := by
  obtain ⟨⟨b, t⟩, hc, rfl⟩ := Option.map_eq_some_iff.1 h
  obtain ⟨rfl, -⟩ := eq_of_cut hc
  simp only [List.length_append, List.length_singleton]
  omega

end NodeList
