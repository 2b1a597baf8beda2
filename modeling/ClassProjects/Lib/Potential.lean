import Mathlib.Data.List.GetD
import Mathlib.Data.Prod.Lex
import Mathlib.Tactic.Linarith
import Mathlib.Tactic.Ring

/-!
# Potentials of a list of numbers

`weigh w xs` adds the elements of `xs`, each times the weight of its position. Assigning to
one position changes it by what the position gains (`weigh_set`), so a potential of a list
of counters is followed through single assignments.

A relation is well-founded if two potentials that are bounded below decrease along it in
lexicographic order (`wellFounded_of_potentials`).
-/

namespace Potential

/-- The sum of the elements, each times the weight of its position. -/
def weigh : (ℕ → ℤ) → List ℤ → ℤ
  | _, [] => 0
  | w, x :: xs => w 0 * x + weigh (fun k => w (k + 1)) xs

/-- The sum of the elements. -/
def total : List ℤ → ℤ
  | [] => 0
  | x :: xs => x + total xs

variable {w : ℕ → ℤ} {xs ys : List ℤ} {k : ℕ} {x y c m : ℤ}

theorem weigh_one : ∀ xs : List ℤ, weigh (fun _ => 1) xs = total xs
  | [] => rfl
  | x :: xs => by rw [weigh, total, one_mul, weigh_one xs]

theorem total_append : ∀ xs ys : List ℤ, total (xs ++ ys) = total xs + total ys
  | [], ys => by rw [List.nil_append, total, zero_add]
  | x :: xs, ys => by rw [List.cons_append, total, total, total_append xs ys, add_assoc]

theorem total_map_one {α : Type*} : ∀ xs : List α, total (xs.map fun _ => 1) = xs.length
  | [] => rfl
  | x :: xs => by
    rw [List.map_cons, total, total_map_one xs, List.length_cons]
    push_cast
    ring

/-- An assignment adds the position's weight times what the position gains. -/
theorem weigh_set (hk : k < xs.length) (y : ℤ) :
    weigh w (xs.set k y) = weigh w xs + w k * (y - xs.getD k 0) := by
  induction xs generalizing w k with
  | nil => exact absurd hk (Nat.not_lt_zero k)
  | cons x xs ih =>
    cases k with
    | zero =>
      rw [List.set_cons_zero, weigh, weigh, List.getD_cons_zero]
      ring
    | succ k =>
      rw [List.set_cons_succ, weigh, weigh, List.getD_cons_succ, ih (Nat.lt_of_succ_lt_succ hk)]
      ring

/-- The weight that counts one position only. -/
theorem weigh_single (xs : List ℤ) (k : ℕ) :
    weigh (fun m => if m = k then 1 else 0) xs = xs.getD k 0 := by
  have hzero : ∀ xs : List ℤ, weigh (fun _ => 0) xs = 0 := by
    intro xs
    induction xs with
    | nil => rfl
    | cons x xs ih => rw [weigh, ih, zero_mul, add_zero]
  induction xs generalizing k with
  | nil => rw [weigh, List.getD_nil]
  | cons x xs ih =>
    cases k with
    | zero => simp [weigh, hzero]
    | succ k => simpa [weigh] using ih k

/-- Lists of one length with elements bounded below have a bounded potential. -/
theorem weigh_bounded (hw : ∀ k, 0 ≤ w k) (n : ℕ) (m : ℤ) :
    ∃ lo, ∀ xs : List ℤ, xs.length = n → (∀ x ∈ xs, m ≤ x) → lo ≤ weigh w xs := by
  induction n generalizing w with
  | zero =>
    refine ⟨0, fun xs hlen _ => ?_⟩
    rw [List.length_eq_zero_iff.1 hlen, weigh]
  | succ n ih =>
    obtain ⟨lo, hlo⟩ := ih fun k => hw (k + 1)
    refine ⟨w 0 * m + lo, fun xs hlen hm => ?_⟩
    obtain ⟨x, xs, rfl⟩ := List.exists_cons_of_length_eq_add_one hlen
    have htail := hlo xs (by simpa using hlen) fun y hy => hm y (List.mem_cons_of_mem _ hy)
    have hhead := mul_le_mul_of_nonneg_left (hm x List.mem_cons_self) (hw 0)
    rw [weigh]
    linarith

/-- Elements that are at most `c` add up to at most as many times `c`. -/
theorem total_le (h : ∀ x ∈ xs, x ≤ c) : total xs ≤ xs.length * c := by
  induction xs with
  | nil => simp [total]
  | cons x xs ih =>
    have hx := h x List.mem_cons_self
    have htail := ih fun y hy => h y (List.mem_cons_of_mem _ hy)
    rw [total, List.length_cons]
    push_cast
    linarith

theorem total_nonneg (h : ∀ x ∈ xs, 0 ≤ x) : 0 ≤ total xs := by
  induction xs with
  | nil => exact le_refl 0
  | cons x xs ih =>
    have hx := h x List.mem_cons_self
    have htail := ih fun y hy => h y (List.mem_cons_of_mem _ hy)
    rw [total]
    omega

theorem weigh_nonneg (hw : ∀ k, 0 ≤ w k) (h : ∀ x ∈ xs, 0 ≤ x) : 0 ≤ weigh w xs := by
  induction xs generalizing w with
  | nil => exact le_refl 0
  | cons x xs ih =>
    have hx := mul_nonneg (hw 0) (h x List.mem_cons_self)
    have htail := ih (fun k => hw (k + 1)) fun y hy => h y (List.mem_cons_of_mem _ hy)
    rw [weigh]
    omega

/-- An element of a list of non-negative numbers is at most their sum. -/
theorem le_total (h : ∀ x ∈ xs, 0 ≤ x) (hx : x ∈ xs) : x ≤ total xs := by
  obtain ⟨ys, zs, rfl⟩ := List.append_of_mem hx
  have hys := total_nonneg fun y hy => h y (List.mem_append_left _ hy)
  have hzs := total_nonneg fun z hz => h z (List.mem_append_right _ (List.mem_cons_of_mem _ hz))
  rw [total_append, total]
  omega

theorem exists_ne_zero (h : total xs ≠ 0) : ∃ x ∈ xs, x ≠ 0 := by
  by_contra hall
  push Not at hall
  have hle : total xs ≤ xs.length * 0 := total_le fun x hx => (hall x hx).le
  rw [mul_zero] at hle
  exact h (le_antisymm hle (total_nonneg fun x hx => (hall x hx).ge))

/-- Two potentials that are bounded below and decrease in lexicographic order. -/
theorem wellFounded_of_potentials {α : Type*} {r : α → α → Prop} (S D : α → ℤ) {lo lo' : ℤ}
    (hS : ∀ a b, r a b → lo ≤ S a) (hD : ∀ a b, r a b → lo' ≤ D a)
    (hdec : ∀ a b, r a b → S a < S b ∨ S a ≤ S b ∧ D a < D b) : WellFounded r := by
  have hwf : WellFounded (InvImage (Prod.Lex (· < ·) (· < ·))
      fun a => ((S a - lo).toNat, (D a - lo').toNat)) :=
    InvImage.wf _ (WellFounded.prod_lex Nat.lt_wfRel.wf Nat.lt_wfRel.wf)
  refine Subrelation.wf (fun {a b} hab => ?_) hwf
  have hSa := hS a b hab
  have hDa := hD a b hab
  refine Prod.lex_iff.2 ?_
  rcases hdec a b hab with hlt | ⟨hle, hlt⟩
  · exact Or.inl (by simp only; omega)
  · rcases hle.lt_or_eq with hlt' | heq
    · exact Or.inl (by simp only; omega)
    · exact Or.inr ⟨by simp only [heq], by simp only; omega⟩

end Potential
