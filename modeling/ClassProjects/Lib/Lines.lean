import Mathlib.Data.List.Basic
import Mathlib.Tactic.Common

/-!
# The lines of a text

`lines` splits a text behind each newline, as `getline` reads it : every line keeps its
newline, and only the last may lack one. `unlines` writes lines with a newline behind each,
and what it writes is split into the same lines (`lines_unlines`).

`split` takes the newlines off, and keeps what is behind the last of them apart. Every text
is the lines and the tail of one split (`unlines_split`, `split_unlines`).
-/

namespace Lines

/-- Split behind each newline. -/
def lines : List Char → List (List Char)
  | [] => []
  | c :: s =>
    if c = '\n' then [c] :: lines s
    else
      match lines s with
      | [] => [[c]]
      | l :: ls => (c :: l) :: ls

/-- Write the lines with a newline behind each. -/
def unlines (ls : List (List Char)) : List Char :=
  ls.flatMap (· ++ ['\n'])

theorem lines_append_newline {l : List Char} (hl : '\n' ∉ l) (s : List Char) :
    lines (l ++ '\n' :: s) = (l ++ ['\n']) :: lines s := by
  induction l with
  | nil => rw [List.nil_append, lines, if_pos rfl, List.nil_append]
  | cons c l ih =>
    obtain ⟨hc, hl⟩ := List.ne_and_not_mem_of_not_mem_cons hl
    rw [List.cons_append, lines, if_neg hc.symm, ih hl]
    rfl

theorem lines_unlines {ls : List (List Char)} (h : ∀ l ∈ ls, '\n' ∉ l) :
    lines (unlines ls) = ls.map (· ++ ['\n']) := by
  induction ls with
  | nil => rfl
  | cons l ls ih =>
    rw [unlines, List.flatMap_cons, List.append_assoc, List.singleton_append,
      lines_append_newline (h l List.mem_cons_self), List.map_cons,
      ← ih fun l' hl' => h l' (List.mem_cons_of_mem _ hl'), unlines]

@[simp] theorem unlines_nil : unlines [] = [] :=
  rfl

@[simp] theorem unlines_cons (l : List Char) (ls : List (List Char)) :
    unlines (l :: ls) = l ++ '\n' :: unlines ls := by
  rw [unlines, List.flatMap_cons, List.append_assoc, List.singleton_append, unlines]

/-- What `lines` splits off : a line with its newline, or a last one without. -/
def IsLine (l rest : List Char) : Prop :=
  (∃ t, '\n' ∉ t ∧ l = t ++ ['\n']) ∨ '\n' ∉ l ∧ l ≠ [] ∧ rest = []

theorem IsLine.length_pos {l rest : List Char} (h : IsLine l rest) : 0 < l.length := by
  rcases h with ⟨t, -, rfl⟩ | ⟨-, hne, -⟩
  · simp
  · exact List.length_pos_of_ne_nil hne

/-- The first line of a text, and what is behind it. -/
theorem lines_eq_cons {s l : List Char} {ls : List (List Char)} (h : lines s = l :: ls) :
    ∃ rest, s = l ++ rest ∧ IsLine l rest ∧ lines rest = ls := by
  induction s generalizing l ls with
  | nil => cases h
  | cons c s ih =>
    rw [lines] at h
    split_ifs at h with hc
    · obtain ⟨rfl, rfl⟩ := List.cons.inj h
      exact ⟨s, rfl, Or.inl ⟨[], List.not_mem_nil, by rw [hc]; rfl⟩, rfl⟩
    · split at h
      · rename_i hs
        obtain ⟨rfl, rfl⟩ := List.cons.inj h
        have hnil : s = [] := by
          cases s with
          | nil => rfl
          | cons d s =>
            rw [lines] at hs
            split_ifs at hs
            split at hs <;> cases hs
        subst hnil
        exact ⟨[], rfl, Or.inr ⟨by simpa using Ne.symm hc, List.cons_ne_nil c [], rfl⟩, rfl⟩
      · rename_i l' ls' hs
        obtain ⟨rfl, rfl⟩ := List.cons.inj h
        obtain ⟨rest, rfl, hline, hrest⟩ := ih hs
        refine ⟨rest, rfl, ?_, hrest⟩
        rcases hline with ⟨t, ht, rfl⟩ | ⟨hl, -, rfl⟩
        · exact Or.inl ⟨c :: t, List.not_mem_cons_of_ne_of_not_mem (Ne.symm hc) ht, rfl⟩
        · exact Or.inr ⟨List.not_mem_cons_of_ne_of_not_mem (Ne.symm hc) hl,
            List.cons_ne_nil c l', rfl⟩

theorem lines_of_not_mem {l : List Char} (hl : '\n' ∉ l) (hne : l ≠ []) : lines l = [l] := by
  induction l with
  | nil => exact absurd rfl hne
  | cons c l ih =>
    obtain ⟨hc, hl⟩ := List.ne_and_not_mem_of_not_mem_cons hl
    rw [lines, if_neg hc.symm]
    cases l with
    | nil => rfl
    | cons d l => rw [ih hl (List.cons_ne_nil d l)]

theorem flatten_lines (s : List Char) : (lines s).flatten = s := by
  induction s with
  | nil => rfl
  | cons c s ih =>
    rw [lines]
    split_ifs
    · rw [List.flatten_cons, ih, List.singleton_append]
    · split
      · rename_i hs
        rw [hs] at ih
        rw [← ih]
        rfl
      · rename_i l ls hs
        rw [hs, List.flatten_cons] at ih
        rw [List.flatten_cons, List.cons_append, ih]

/-- A line has no newline but its own. -/
theorem newline_notMem_dropLast {s l : List Char} (h : l ∈ lines s) : '\n' ∉ l.dropLast := by
  induction s generalizing l with
  | nil => cases h
  | cons c s ih =>
    rw [lines] at h
    split_ifs at h with hc
    · rcases List.mem_cons.1 h with rfl | h
      · exact List.not_mem_nil
      · exact ih h
    · split at h
      · rw [List.mem_singleton.1 h]
        exact List.not_mem_nil
      · rename_i l' ls hs
        rcases List.mem_cons.1 h with rfl | h
        · cases l' with
          | nil => exact List.not_mem_nil
          | cons d l' =>
            rw [List.dropLast_cons_cons]
            exact List.not_mem_cons_of_ne_of_not_mem (Ne.symm hc) (ih (hs ▸ List.mem_cons_self))
        · exact ih (hs ▸ List.mem_cons_of_mem _ h)

/-! ## Lines and tail -/

/-- The lines of a text without their newlines, and what follows the last newline. -/
def split : List Char → List (List Char) × List Char
  | [] => ([], [])
  | c :: s =>
    if c = '\n' then ([] :: (split s).1, (split s).2)
    else
      match split s with
      | ([], t) => ([], c :: t)
      | (l :: ls, t) => ((c :: l) :: ls, t)

theorem unlines_split (s : List Char) : unlines (split s).1 ++ (split s).2 = s := by
  induction s with
  | nil => rfl
  | cons c s ih =>
    rw [split]
    split_ifs with hc
    · rw [unlines_cons, List.nil_append, List.cons_append, ih, hc]
    · split
      · rename_i t h
        rw [h] at ih
        exact congrArg (c :: ·) ih
      · rename_i l ls t h
        rw [h] at ih
        simpa using ih

/-- Neither a line nor the tail has a newline. -/
theorem split_not_mem (s : List Char) :
    (∀ l ∈ (split s).1, '\n' ∉ l) ∧ '\n' ∉ (split s).2 := by
  induction s with
  | nil => exact ⟨by simp [split], by simp [split]⟩
  | cons c s ih =>
    obtain ⟨hls, ht⟩ := ih
    rw [split]
    split_ifs with hc
    · exact ⟨List.forall_mem_cons.2 ⟨List.not_mem_nil, hls⟩, ht⟩
    · split
      · rename_i t h
        rw [h] at ht
        exact ⟨by simp, List.not_mem_cons_of_ne_of_not_mem (Ne.symm hc) ht⟩
      · rename_i l ls t h
        rw [h] at hls ht
        obtain ⟨hl, hls⟩ := List.forall_mem_cons.1 hls
        exact ⟨List.forall_mem_cons.2
          ⟨List.not_mem_cons_of_ne_of_not_mem (Ne.symm hc) hl, hls⟩, ht⟩

theorem split_of_not_mem {t : List Char} (ht : '\n' ∉ t) : split t = ([], t) := by
  induction t with
  | nil => rfl
  | cons c t ih =>
    obtain ⟨hc, ht⟩ := List.ne_and_not_mem_of_not_mem_cons ht
    rw [split, if_neg hc.symm, ih ht]

theorem split_append_newline {l : List Char} (hl : '\n' ∉ l) (s : List Char) :
    split (l ++ '\n' :: s) = (l :: (split s).1, (split s).2) := by
  induction l with
  | nil => rw [List.nil_append, split, if_pos rfl]
  | cons c l ih =>
    obtain ⟨hc, hl⟩ := List.ne_and_not_mem_of_not_mem_cons hl
    rw [List.cons_append, split, if_neg hc.symm, ih hl]

theorem split_unlines {ls : List (List Char)} {t : List Char} (hls : ∀ l ∈ ls, '\n' ∉ l)
    (ht : '\n' ∉ t) : split (unlines ls ++ t) = (ls, t) := by
  induction ls with
  | nil => exact split_of_not_mem ht
  | cons l ls ih =>
    obtain ⟨hl, hls⟩ := List.forall_mem_cons.1 hls
    rw [unlines_cons, List.append_assoc, List.cons_append, split_append_newline hl, ih hls]

end Lines
