import Mathlib.Data.List.Basic
import Mathlib.Tactic.Common

/-!
# Reading in chunks

`chunk p n` reads at most `n` elements of a stream, up to and including the first delimiter,
as `fgets` does with a buffer of a fixed size. A line that is shorter than the buffer is read
at once (`chunk_of_lt`), and of a longer one the buffer is filled (`chunk_of_le`).
-/

namespace Chunks

variable {α : Type*} {p : α → Bool} {s l : List α} {c : α} {n : ℕ}

/-- The next chunk, and the rest of the stream. -/
def chunk (p : α → Bool) : ℕ → List α → List α × List α
  | 0, s => ([], s)
  | _ + 1, [] => ([], [])
  | n + 1, c :: s => if p c then ([c], s) else (c :: (chunk p n s).1, (chunk p n s).2)

theorem chunk_cons_of_not (hc : p c = false) (n : ℕ) (s : List α) :
    chunk p (n + 1) (c :: s) = (c :: (chunk p n s).1, (chunk p n s).2) := by
  rw [chunk, hc]
  rfl

/-- A line that fits is read with its delimiter. -/
theorem chunk_of_lt (hl : ∀ x ∈ l, p x = false) (hc : p c = true) (h : l.length < n)
    (s : List α) : chunk p n (l ++ c :: s) = (l ++ [c], s) := by
  induction n generalizing l with
  | zero => exact absurd h (Nat.not_lt_zero _)
  | succ n ih =>
    cases l with
    | nil => rw [List.nil_append, chunk, if_pos hc, List.nil_append]
    | cons x l =>
      obtain ⟨hx, hl⟩ := List.forall_mem_cons.1 hl
      rw [List.cons_append, chunk_cons_of_not hx, ih hl (Nat.lt_of_succ_lt_succ h),
        List.cons_append]

/-- Of a line that does not fit the buffer is filled. -/
theorem chunk_of_le (hl : ∀ x ∈ l, p x = false) (h : n ≤ l.length) (s : List α) :
    chunk p n (l ++ s) = (l.take n, l.drop n ++ s) := by
  induction n generalizing l with
  | zero => rw [chunk, List.take_zero, List.drop_zero]
  | succ n ih =>
    cases l with
    | nil => exact absurd h (Nat.not_succ_le_zero n)
    | cons x l =>
      obtain ⟨hx, hl⟩ := List.forall_mem_cons.1 hl
      rw [List.cons_append, chunk_cons_of_not hx, ih hl (Nat.le_of_succ_le_succ h),
        List.take_succ_cons, List.drop_succ_cons]

/-- The end of the stream ends a line that fits. -/
theorem chunk_eq_self (hl : ∀ x ∈ l, p x = false) (h : l.length ≤ n) :
    chunk p n l = (l, []) := by
  induction n generalizing l with
  | zero => rw [List.length_eq_zero_iff.1 (Nat.le_zero.1 h), chunk]
  | succ n ih =>
    cases l with
    | nil => rfl
    | cons x l =>
      obtain ⟨hx, hl⟩ := List.forall_mem_cons.1 hl
      rw [chunk_cons_of_not hx, ih hl (Nat.le_of_succ_le_succ h)]

end Chunks
