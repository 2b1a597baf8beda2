import Mathlib.Data.List.Sort
import Mathlib.Data.List.Perm.Basic
import Mathlib.Tactic.Common

/-!
# What qsort promises

`Qsort` is a sort that is known by its contract alone : it rearranges the elements so that they
ascend. In which order it puts two that compare equal is not said.

So the result is known where no two elements compare equal : it does not depend on the order the
elements come in (`Qsort.sort_congr`), and elements that ascend stay as they are
(`Qsort.sort_eq_self`). The contract can be kept (`Qsort.insertion`).
-/

namespace Qsort

/-- A comparison that is total and transitive. Different elements may compare equal. -/
structure Compares {α : Type} (le : α → α → Bool) : Prop where
  total : ∀ a b, le a b = true ∨ le b a = true
  trans : ∀ a b c, le a b = true → le b c = true → le a c = true

/-- No two elements of the list compare equal. -/
def Separates {α : Type} (le : α → α → Bool) (l : List α) : Prop :=
  ∀ a ∈ l, ∀ b ∈ l, le a b = true → le b a = true → a = b

end Qsort

/-- `qsort`. -/
structure Qsort where
  sort {α : Type} (le : α → α → Bool) (base : List α) : List α
  perm {α : Type} (le : α → α → Bool) (base : List α) : (sort le base).Perm base
  ascends {α : Type} {le : α → α → Bool} (base : List α) (h : Qsort.Compares le) :
    (sort le base).Pairwise fun a b => le a b = true

namespace Qsort

variable {α : Type} {le : α → α → Bool} {l l' : List α} (q : Qsort)

theorem mem_sort {a : α} : a ∈ q.sort le l ↔ a ∈ l :=
  (q.perm le l).mem_iff

theorem length_sort : (q.sort le l).length = l.length :=
  (q.perm le l).length_eq

/-- The result is the one ascending rearrangement. -/
theorem eq_sort (h : Compares le) (hsep : Separates le l) (hp : l'.Perm l)
    (hl' : l'.Pairwise fun a b => le a b = true) : l' = q.sort le l := by
  refine List.Perm.eq_of_pairwise (fun a b ha hb => ?_) hl' (q.ascends l h)
    (hp.trans (q.perm le l).symm)
  exact hsep a (hp.mem_iff.1 ha) b (q.mem_sort.1 hb)

/-- The order in which the elements come does not matter. -/
theorem sort_congr (h : Compares le) (hsep : Separates le l) (hp : l'.Perm l) :
    q.sort le l' = q.sort le l :=
  q.eq_sort h hsep ((q.perm le l').trans hp) (q.ascends l' h)

theorem sort_eq_self (h : Compares le) (hsep : Separates le l)
    (hl : l.Pairwise fun a b => le a b = true) : q.sort le l = l :=
  (q.eq_sort h hsep (List.Perm.refl l) hl).symm

theorem sort_sort (h : Compares le) (hsep : Separates le l) :
    q.sort le (q.sort le l) = q.sort le l :=
  q.sort_congr h hsep (q.perm le l)

/-- Sorting by a key sorts the keys. -/
theorem map_sort {β : Type} {le : β → β → Bool} (h : Compares le) (f : α → β)
    (hsep : Separates le (l.map f)) :
    (q.sort (fun a b => le (f a) (f b)) l).map f = q.sort le (l.map f) := by
  refine q.eq_sort h hsep ((q.perm _ l).map f) (List.pairwise_map.2 ?_)
  exact q.ascends l ⟨fun a b => h.total (f a) (f b), fun a b c => h.trans (f a) (f b) (f c)⟩

/-- Insertion sort keeps the contract. -/
def insertion : Qsort where
  sort le base := base.insertionSort fun a b => le a b = true
  perm le base := base.perm_insertionSort _
  ascends base h := by
    have : Std.Total fun a b => _ = true := ⟨h.total⟩
    have : IsTrans _ fun a b => _ = true := ⟨h.trans⟩
    exact base.pairwise_insertionSort _

end Qsort
