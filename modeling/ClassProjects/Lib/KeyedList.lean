import Mathlib.Data.List.Basic
import Mathlib.Data.List.Nodup
import Mathlib.Tactic.Common

/-!
# Lists of records with a key

`lookup key l k` is the first record of `l` with key `k`. Three edits change the record
of one key and no other : `updateKey` rewrites it in place, `dropKey` unlinks it, and
appending a record with a new key adds it. For each edit there is the lookup of any key
after it, and that distinct keys stay distinct.

`updateFirst` rewrites the first record that satisfies a test, which is what a search of
a linked list followed by an assignment through the found node does. On a list with
distinct keys it is `updateKey` at the found record's key (`updateFirst_eq_updateKey`).
-/

namespace KeyedList

variable {α κ : Type*} [DecidableEq κ] (key : α → κ)

/-- The first record with key `k`. -/
def lookup (l : List α) (k : κ) : Option α :=
  l.find? fun x => key x = k

/-- Rewrite the records with key `k`. -/
def updateKey (k : κ) (f : α → α) (l : List α) : List α :=
  l.map fun x => if key x = k then f x else x

/-- Unlink the records with key `k`. -/
def dropKey (k : κ) (l : List α) : List α :=
  l.filter fun x => key x ≠ k

/-- Rewrite the first record that satisfies `p`. -/
def updateFirst (p : α → Bool) (f : α → α) : List α → List α
  | [] => []
  | x :: l => if p x then f x :: l else x :: updateFirst p f l

variable {key} {l : List α} {k k' : κ} {x y : α} {f : α → α}

/-! ## Lookup -/

theorem key_of_lookup (h : lookup key l k = some x) : key x = k := by
  simpa using List.find?_some h

theorem mem_of_lookup (h : lookup key l k = some x) : x ∈ l :=
  List.mem_of_find?_eq_some h

theorem lookup_eq_none : lookup key l k = none ↔ ∀ x ∈ l, key x ≠ k := by
  simp [lookup]

theorem lookup_isSome_of_mem (hx : x ∈ l) : ∃ y, lookup key l (key x) = some y := by
  cases h : lookup key l (key x) with
  | none => exact absurd rfl (lookup_eq_none.1 h x hx)
  | some y => exact ⟨y, rfl⟩

/-- With distinct keys a record is the one its key looks up. -/
theorem lookup_of_mem (hl : (l.map key).Nodup) (hx : x ∈ l) : lookup key l (key x) = some x := by
  obtain ⟨y, hy⟩ : ∃ y, lookup key l (key x) = some y := lookup_isSome_of_mem hx
  rw [hy, List.inj_on_of_nodup_map hl (mem_of_lookup hy) hx (key_of_lookup hy)]

/-- A looked-up record splits the list at its key's only occurrence. -/
theorem split_of_lookup (hl : (l.map key).Nodup) (h : lookup key l k = some x) :
    ∃ b t, l = b ++ x :: t ∧ (∀ y ∈ b, key y ≠ k) ∧ ∀ y ∈ t, key y ≠ k := by
  obtain ⟨b, t, rfl⟩ := List.append_of_mem (mem_of_lookup h)
  obtain rfl := key_of_lookup h
  rw [List.map_append, List.map_cons, List.nodup_middle, List.nodup_cons, List.mem_append] at hl
  refine ⟨b, t, rfl, fun y hy he => hl.1 (Or.inl ?_), fun y hy he => hl.1 (Or.inr ?_)⟩
  · exact he ▸ List.mem_map_of_mem hy
  · exact he ▸ List.mem_map_of_mem hy

/-! ## The edits of one key -/

theorem map_key_updateKey (hf : ∀ x, key (f x) = key x) :
    (updateKey key k f l).map key = l.map key := by
  rw [updateKey, List.map_map]
  refine List.map_congr_left fun x _ => ?_
  by_cases hx : key x = k <;> simp [hx, hf]

theorem mem_updateKey : y ∈ updateKey key k f l ↔ ∃ x ∈ l, (if key x = k then f x else x) = y := by
  simp [updateKey]

theorem updateKey_eq_self (h : ∀ x ∈ l, key x = k → f x = x) : updateKey key k f l = l := by
  have hid : ∀ x ∈ l, (if key x = k then f x else x) = id x := by
    intro x hx
    split_ifs with hk
    · exact h x hx hk
    · rfl
  rw [updateKey, List.map_congr_left hid, List.map_id]

theorem lookup_updateKey (hf : ∀ x, key (f x) = key x) :
    lookup key (updateKey key k f l) k' =
      (lookup key l k').map fun x => if k' = k then f x else x := by
  have hkey : ∀ x, key (if key x = k then f x else x) = key x := by
    intro x
    split_ifs <;> simp [hf]
  rw [lookup, lookup, updateKey, List.find?_map]
  simp only [Function.comp_def, hkey]
  cases h : l.find? fun x => decide (key x = k') with
  | none => rfl
  | some x => simp [key_of_lookup h]

theorem updateKey_split {b t : List α} (hb : ∀ y ∈ b, key y ≠ k) (hx : key x = k)
    (ht : ∀ y ∈ t, key y ≠ k) : updateKey key k f (b ++ x :: t) = b ++ f x :: t := by
  simp only [updateKey, List.map_append, List.map_cons, if_pos hx]
  rw [List.map_congr_left fun y hy => if_neg (hb y hy),
    List.map_congr_left fun y hy => if_neg (ht y hy), List.map_id', List.map_id']

theorem dropKey_split {b t : List α} (hb : ∀ y ∈ b, key y ≠ k) (hx : key x = k)
    (ht : ∀ y ∈ t, key y ≠ k) : dropKey key k (b ++ x :: t) = b ++ t := by
  simp only [dropKey, List.filter_append, List.filter_cons]
  rw [List.filter_eq_self.2 fun y hy => by simpa using hb y hy,
    List.filter_eq_self.2 fun y hy => by simpa using ht y hy]
  simp [hx]

theorem lookup_dropKey :
    lookup key (dropKey key k l) k' = if k' = k then none else lookup key l k' := by
  rw [lookup, dropKey, List.find?_filter]
  split_ifs with h
  · subst h
    simp
  · rw [lookup]
    congr 1
    ext x
    by_cases hx : key x = k' <;> simp [hx, h]

theorem nodup_dropKey (hl : (l.map key).Nodup) : ((dropKey key k l).map key).Nodup :=
  (List.filter_sublist.map key).nodup hl

theorem lookup_append_singleton (h : lookup key l (key x) = none) :
    lookup key (l ++ [x]) k' = if k' = key x then some x else lookup key l k' := by
  rw [lookup, List.find?_append]
  split_ifs with hk
  · subst hk
    rw [lookup] at h
    simp [h]
  · have hx : ¬key x = k' := fun he => hk he.symm
    simp [lookup, hx]

theorem nodup_append_singleton (hl : (l.map key).Nodup) (h : lookup key l (key x) = none) :
    ((l ++ [x]).map key).Nodup := by
  rw [List.map_append, List.nodup_append]
  refine ⟨hl, by simp, fun a ha b hb hab => ?_⟩
  obtain ⟨y, hy, rfl⟩ := List.mem_map.1 ha
  obtain rfl : b = key x := by simpa using hb
  exact lookup_eq_none.1 h y hy hab

/-! ## Rewriting the first match -/

theorem updateFirst_of_find?_eq_none {p : α → Bool} (h : l.find? p = none) :
    updateFirst p f l = l := by
  induction l with
  | nil => rfl
  | cons x l ih =>
    rw [List.find?_cons] at h
    cases hp : p x with
    | true => simp [hp] at h
    | false => simp [updateFirst, hp, ih (by simpa [hp] using h)]

theorem updateFirst_split {p : α → Bool} (h : l.find? p = some x) :
    ∃ b t, l = b ++ x :: t ∧ (∀ y ∈ b, p y = false) ∧ updateFirst p f l = b ++ f x :: t := by
  induction l with
  | nil => simp at h
  | cons y l ih =>
    rw [List.find?_cons] at h
    cases hp : p y with
    | true =>
      obtain rfl : y = x := by simpa [hp] using h
      exact ⟨[], l, rfl, by simp, by simp [updateFirst, hp]⟩
    | false =>
      obtain ⟨b, t, rfl, hb, hu⟩ := ih (by simpa [hp] using h)
      exact ⟨y :: b, t, rfl, by simpa [hp] using hb, by simp [updateFirst, hp, hu]⟩

theorem mem_updateFirst {p : α → Bool} (h : y ∈ updateFirst p f l) :
    y ∈ l ∨ ∃ x, l.find? p = some x ∧ y = f x := by
  cases hx : l.find? p with
  | none =>
    rw [updateFirst_of_find?_eq_none hx] at h
    exact Or.inl h
  | some x =>
    obtain ⟨b, t, hl, -, hu⟩ := updateFirst_split (f := f) hx
    rw [hu, List.mem_append, List.mem_cons] at h
    rw [hl, List.mem_append, List.mem_cons]
    rcases h with h | rfl | h
    · exact Or.inl (Or.inl h)
    · exact Or.inr ⟨x, rfl, rfl⟩
    · exact Or.inl (Or.inr (Or.inr h))

/-- If no rewritten record comes to satisfy `q`, no more records do. -/
theorem countP_updateFirst_le {p q : α → Bool} (hf : ∀ x, q (f x) = true → q x = true) :
    (updateFirst p f l).countP q ≤ l.countP q := by
  induction l with
  | nil => exact Nat.le_refl _
  | cons x l ih =>
    have hx := hf x
    rw [updateFirst]
    split_ifs
    · rw [List.countP_cons, List.countP_cons]
      cases hfx : q (f x) <;> simp_all
    · rw [List.countP_cons, List.countP_cons]
      exact Nat.add_le_add_right ih _

theorem countP_updateFirst_le_succ {p q : α → Bool} :
    (updateFirst p f l).countP q ≤ l.countP q + 1 := by
  induction l with
  | nil => exact Nat.zero_le _
  | cons x l ih =>
    rw [updateFirst]
    split_ifs
    · rw [List.countP_cons, List.countP_cons]
      split_ifs <;> omega
    · rw [List.countP_cons, List.countP_cons]
      omega

/-- With distinct keys, rewriting the first match of a search is rewriting its key. -/
theorem updateFirst_eq_updateKey {p : α → Bool} (hl : (l.map key).Nodup) (h : l.find? p = some x) :
    updateFirst p f l = updateKey key (key x) f l := by
  induction l with
  | nil => simp at h
  | cons y l ih =>
    rw [List.map_cons, List.nodup_cons] at hl
    rw [List.find?_cons] at h
    cases hp : p y with
    | true =>
      obtain rfl : y = x := by simpa [hp] using h
      have ht : ∀ z ∈ l, key z ≠ key y := fun z hz he => hl.1 (he ▸ List.mem_map_of_mem hz)
      rw [updateFirst, if_pos hp]
      exact (updateKey_split (b := []) (by simp) rfl ht).symm
    | false =>
      have hx : l.find? p = some x := by simpa [hp] using h
      have hyx : key y ≠ key x := fun he =>
        hl.1 (he ▸ List.mem_map_of_mem (List.mem_of_find?_eq_some hx))
      simp [updateFirst, hp, updateKey, if_neg hyx, ih hl.2 hx]

end KeyedList
