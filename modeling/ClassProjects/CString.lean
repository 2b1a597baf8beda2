import Mathlib.Data.List.TakeWhile
import Mathlib.Tactic.Common

/-!
# C strings and `ctype.h`

A C string is the list of its characters before the terminating NUL, so `strlen` is the
length and `strcmp` equality. `isspace` and `isprint` are those of the C locale.
-/

namespace ClassProjects

/-- A C string, without its terminating NUL. -/
abbrev CStr := List Char

/-- Blank, `\t`, `\n`, `\v`, `\f` and `\r`. -/
def isspace (c : Char) : Bool :=
  c = ' ' ∨ (9 ≤ c.toNat ∧ c.toNat ≤ 13)

/-- The printing characters of ASCII, the blank included. -/
def isprint (c : Char) : Bool :=
  32 ≤ c.toNat ∧ c.toNat ≤ 126

@[simp] theorem isspace_newline : isspace '\n' = true := by
  decide

/-- What a C function reads of a buffer : the characters before the first NUL. -/
def cstr (buf : List Char) : CStr :=
  buf.takeWhile (· ≠ '\x00')

theorem cstr_eq_self {s : List Char} (h : '\x00' ∉ s) : cstr s = s := by
  rw [cstr, List.takeWhile_eq_self_iff]
  intro c hc
  simpa using fun he : c = '\x00' => h (he ▸ hc)

end ClassProjects
