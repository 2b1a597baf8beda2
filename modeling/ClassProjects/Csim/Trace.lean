import ClassProjects.Csim.Blocks
import ClassProjects.Csim.Address
import ClassProjects.Ims.Storage
import Mathlib.Data.List.DropRight

/-!
# The trace file

`simulate` reads its trace with `fscanf`, and a conversion that fails leaves the rest of the
file where it stopped. `pass` is an iteration of its loop, on what is left of the file, and
`readTrace` the loop. What an access does is a parameter there, and `simulateFile` is the loop
on the cache as a list of sets. The conversions `%s` and the sign of a number are those of `sscanf`
in the loader of the server. An operation of more than one character is written behind `op`,
and a line whose address does not convert leaves `addr` without a value. Both are undefined.

A line of a trace has an indent, an operation, a gap, the address in hexadecimal, a comma,
the size and a newline (`Row`). On a file of such lines `csim` prints the counts that the
history of the blocks gives (`main_rows`). That needs two lines a set, and masks that are
defined : they keep the lowest bits of the block's number, all of them if the tag's mask is
as wide as the tag.
-/

namespace ClassProjects

namespace Csim

open Ims (scanSign scanWord scanSign_of_isDigit isspace_of_isDigit)

variable {σ : Type} {access : σ → Access → Option σ} {rule : IntRule} {max : ℕ∞}
  {cache : Geometry} {sim sim' : Sim} {tr tr' rest : CStr} {s b kt E : ℕ}

/-! ## Reading -/

/-- The value of a hexadecimal digit. -/
def hexVal (c : Char) : ℕ :=
  if c.isDigit then c.toNat - 48 else if 97 ≤ c.toNat then c.toNat - 87 else c.toNat - 55

/-- The value of hexadecimal digits. -/
def ofHex (digits : CStr) : ℕ :=
  digits.foldl (fun n c => 16 * n + hexVal c) 0

/-- What is behind a `0x`. -/
def skip0x : CStr → CStr
  | '0' :: 'x' :: s => s
  | '0' :: 'X' :: s => s
  | s => s

/-- A `%lx` conversion, with the value of `strtoul` : `none` if there is no digit. That a `0x`
without a digit behind it fails to match follows the C standard : glibc converts it to 0. -/
def scanHex (tr : CStr) : Option ℕ × CStr :=
  let (negative, s) := scanSign (tr.dropWhile isspace)
  let s := skip0x s
  let d := ofHex (s.takeWhile Char.isHexDigit)
  if s.takeWhile Char.isHexDigit = [] then (none, s)
  else
    (some (if 2 ^ 64 ≤ d then 2 ^ 64 - 1 else if negative then (2 ^ 64 - d) % 2 ^ 64 else d),
      s.dropWhile Char.isHexDigit)

/-- The rest of the format behind the address, `,%*d\n`. -/
def skipSize : CStr → CStr
  | ',' :: tr =>
    let s := (scanSign (tr.dropWhile isspace)).2
    if s.takeWhile Char.isDigit = [] then s
    else (s.dropWhile Char.isDigit).dropWhile isspace
  | tr => tr

/-- `fscanf` with `%lx,%*d\n` : the address, if it was assigned. -/
def scanAddr (tr : CStr) : Option ℕ × CStr :=
  match scanHex tr with
  | (none, tr) => (none, tr)
  | (some addr, tr) => (some addr, skipSize tr)

/-- The operation of a line. All but `I` and `M` are treated alike. -/
def opOf (c : Char) : Op :=
  if c = 'I' then .I else if c = 'M' then .M else if c = 'S' then .S else .L

/-- An iteration of the loop of `simulate` : at the end of the file it is not taken. -/
def pass (access : σ → Access → Option σ) (rule : IntRule) (cache : Geometry) (sim : σ)
    (tr : CStr) : Option (Option (σ × CStr)) :=
  match scanWord tr with
  | ([], _) => some none
  | ([op], tr) =>
    if op = 'I' then some (some (sim, (scanAddr tr).2))
    else
      match scanAddr tr with
      | (none, _) => none
      | (some addr, tr) => do
        let (S, tag) ← decode rule cache (BitVec.ofNat 64 addr)
        let sim ← access sim ⟨opOf op, S.toNat, UInt64.ofBitVec tag⟩
        some (some (sim, tr))
  | (_ :: _ :: _, _) => none

theorem length_scanSign_le (s : CStr) : (scanSign s).2.length ≤ s.length := by
  unfold scanSign
  split <;> simp

theorem length_skip0x_le (s : CStr) : (skip0x s).length ≤ s.length := by
  unfold skip0x
  split <;> simp <;> omega

theorem length_scanHex_le (tr : CStr) : (scanHex tr).2.length ≤ tr.length := by
  have h₁ := List.length_dropWhile_le isspace tr
  have h₂ := length_scanSign_le (tr.dropWhile isspace)
  have h₃ := length_skip0x_le (scanSign (tr.dropWhile isspace)).2
  have h₄ := List.length_dropWhile_le Char.isHexDigit
    (skip0x (scanSign (tr.dropWhile isspace)).2)
  unfold scanHex
  dsimp only
  split <;> dsimp only <;> omega

theorem length_skipSize_le (tr : CStr) : (skipSize tr).length ≤ tr.length := by
  unfold skipSize
  split
  · rename_i s
    have h₁ := List.length_dropWhile_le isspace s
    have h₂ := length_scanSign_le (s.dropWhile isspace)
    have h₃ := List.length_dropWhile_le Char.isDigit (scanSign (s.dropWhile isspace)).2
    have h₄ := List.length_dropWhile_le isspace
      ((scanSign (s.dropWhile isspace)).2.dropWhile Char.isDigit)
    simp only [List.length_cons]
    split <;> omega
  · exact le_rfl

theorem length_scanAddr_le (tr : CStr) : (scanAddr tr).2.length ≤ tr.length := by
  have h := length_scanHex_le tr
  unfold scanAddr
  split
  · rename_i heq
    rwa [heq] at h
  · rename_i heq
    rw [heq] at h
    exact (length_skipSize_le _).trans h

/-- A word takes some of the file. -/
theorem length_scanWord_lt {w : CStr} (h : scanWord tr = (w, tr')) (hw : w ≠ []) :
    tr'.length < tr.length := by
  have hle := List.length_dropWhile_le isspace tr
  have hlen := congrArg List.length
    (List.takeWhile_append_dropWhile (p := fun c => !isspace c) (l := tr.dropWhile isspace))
  obtain ⟨rfl, rfl⟩ := Prod.mk.inj h
  have hpos := List.length_pos_of_ne_nil hw
  rw [List.length_append] at hlen
  omega

/-- What an iteration reads does not depend on the cache : something that does not convert, the
end of the file, a line without an access, or a line with one. -/
theorem pass_reads (rule : IntRule) (cache : Geometry) (tr : CStr) :
    (∀ {σ : Type} (access : σ → Access → Option σ) (sim : σ),
      pass access rule cache sim tr = none) ∨
    (∀ {σ : Type} (access : σ → Access → Option σ) (sim : σ),
      pass access rule cache sim tr = some none) ∨
    ∃ tr', tr'.length < tr.length ∧
      ((∀ {σ : Type} (access : σ → Access → Option σ) (sim : σ),
        pass access rule cache sim tr = some (some (sim, tr'))) ∨
      ∃ a, ∀ {σ : Type} (access : σ → Access → Option σ) (sim : σ),
        pass access rule cache sim tr = (access sim a).map fun sim' => some (sim', tr')) := by
  unfold pass
  rcases hw : scanWord tr with ⟨_ | ⟨op, _ | ⟨c, w⟩⟩, tr₁⟩
  · exact Or.inr (Or.inl fun _ _ => rfl)
  · have hlt := length_scanWord_lt hw (List.cons_ne_nil op [])
    have hle := length_scanAddr_le tr₁
    by_cases hI : op = 'I'
    · exact Or.inr (Or.inr ⟨(scanAddr tr₁).2, by omega, Or.inl fun _ _ => if_pos hI⟩)
    · simp only [if_neg hI]
      rcases hs : scanAddr tr₁ with ⟨_ | addr, tr₂⟩
      · exact Or.inl fun _ _ => rfl
      · replace hle : tr₂.length ≤ tr₁.length := by rwa [hs] at hle
        cases hd : decode rule cache (BitVec.ofNat 64 addr) with
        | none => exact Or.inl fun _ _ => by simp [hd]
        | some r =>
          refine Or.inr (Or.inr ⟨tr₂, by omega, Or.inr
            ⟨⟨opOf op, r.1.toNat, UInt64.ofBitVec r.2⟩, fun access sim => ?_⟩⟩)
          simp only [hd, Option.bind_eq_bind, Option.bind_some]
          cases access sim ⟨opOf op, r.1.toNat, UInt64.ofBitVec r.2⟩ <;> rfl
  · exact Or.inl fun _ _ => rfl

/-- An iteration takes some of the file. -/
theorem pass_length {sim sim' : σ}
    (h : pass access rule cache sim tr = some (some (sim', tr'))) : tr'.length < tr.length := by
  rcases pass_reads rule cache tr with hp | hp | ⟨tr₁, hlt, hp | ⟨a, hp⟩⟩ <;> rw [hp] at h
  · cases h
  · cases h
  · obtain ⟨-, rfl⟩ := Prod.mk.inj (Option.some.inj (Option.some.inj h))
    exact hlt
  · obtain ⟨sim₁, -, h⟩ := Option.map_eq_some_iff.1 h
    obtain ⟨-, rfl⟩ := Prod.mk.inj (Option.some.inj h)
    exact hlt

/-- The loop of `simulate`. -/
def readTrace (access : σ → Access → Option σ) (rule : IntRule) (cache : Geometry) (sim : σ)
    (tr : CStr) : Option σ :=
  match _h : pass access rule cache sim tr with
  | none => none
  | some none => some sim
  | some (some (sim', tr')) => readTrace access rule cache sim' tr'
termination_by tr.length
decreasing_by exact pass_length _h

theorem readTrace_next {sim sim' : σ}
    (h : pass access rule cache sim tr = some (some (sim', tr'))) :
    readTrace access rule cache sim tr = readTrace access rule cache sim' tr' := by
  rw [readTrace, h]

theorem readTrace_end {sim : σ} (h : pass access rule cache sim tr = some none) :
    readTrace access rule cache sim tr = some sim := by
  rw [readTrace, h]

theorem readTrace_wrong {sim : σ} (h : pass access rule cache sim tr = none) :
    readTrace access rule cache sim tr = none := by
  rw [readTrace, h]

/-- The accesses of a file, in order. -/
def fileAccesses (rule : IntRule) (cache : Geometry) (tr : CStr) : Option (List Access) :=
  readTrace (fun trace a => some (trace ++ [a])) rule cache [] tr

theorem readTrace_record (rule : IntRule) (cache : Geometry) (trace : List Access) (tr : CStr) :
    readTrace (fun trace a => some (trace ++ [a])) rule cache trace tr =
      (fileAccesses rule cache tr).map (trace ++ ·) := by
  induction hn : tr.length using Nat.strongRecOn generalizing trace tr with
  | ind n ih =>
    subst hn
    rw [fileAccesses]
    rcases pass_reads rule cache tr with hp | hp | ⟨tr', hlt, hp | ⟨a, hp⟩⟩
    · rw [readTrace_wrong (hp _ _), readTrace_wrong (hp _ _)]
      rfl
    · rw [readTrace_end (hp _ _), readTrace_end (hp _ _)]
      simp
    · rw [readTrace_next (hp _ _), readTrace_next (hp _ _), ih _ hlt _ _ rfl]
      rfl
    · have hnext : ∀ trace : List Access, pass (fun trace a => some (trace ++ [a])) rule cache trace
          tr = some (some (trace ++ [a], tr')) := fun trace => hp _ trace
      rw [readTrace_next (hnext trace), readTrace_next (hnext []), ih _ hlt _ _ rfl,
        ih _ hlt _ _ rfl, Option.map_map]
      simp only [Function.comp_def, List.append_assoc, List.nil_append]

/-- The loop on a file performs its accesses. -/
theorem readTrace_eq (access : σ → Access → Option σ) (rule : IntRule) (cache : Geometry) (sim : σ)
    (tr : CStr) : readTrace access rule cache sim tr =
      (fileAccesses rule cache tr).bind fun trace => trace.foldlM access sim := by
  induction hn : tr.length using Nat.strongRecOn generalizing sim tr with
  | ind n ih =>
    subst hn
    rcases pass_reads rule cache tr with hp | hp | ⟨tr', hlt, hp | ⟨a, hp⟩⟩
    · rw [fileAccesses, readTrace_wrong (hp _ _), readTrace_wrong (hp _ _)]
      rfl
    · rw [fileAccesses, readTrace_end (hp _ _), readTrace_end (hp _ _)]
      rfl
    · rw [fileAccesses, readTrace_next (hp _ _), readTrace_next (hp _ _), ih _ hlt _ _ rfl]
      rfl
    · have htrace : fileAccesses rule cache tr = (fileAccesses rule cache tr').map ([a] ++ ·) := by
        have hnext : pass (fun trace a => some (trace ++ [a])) rule cache [] tr =
            some (some ([a], tr')) := hp _ []
        rw [fileAccesses, readTrace_next hnext, readTrace_record]
      rw [htrace, Option.bind_map]
      cases hs : access sim a with
      | none =>
        rw [readTrace_wrong (by rw [hp, hs]; rfl)]
        simp [hs]
      | some sim' =>
        rw [readTrace_next (by rw [hp, hs]; rfl), ih _ hlt _ _ rfl]
        simp [hs]

/-- `simulate` on a cache and counters. -/
def simulateFile (rule : IntRule) (max : ℕ∞) (cache : Geometry) (sim : Sim) (tr : CStr) :
    Option Sim :=
  readTrace (simStep max) rule cache sim tr

/-- `printSummary` : what it prints, and what it writes to `.csim_results`. -/
def printSummary (hits misses evictions : ℕ) : CStr × CStr :=
  ("hits:".toList ++ Nat.toDigits 10 hits ++ " misses:".toList ++ Nat.toDigits 10 misses ++
      " evictions:".toList ++ Nat.toDigits 10 evictions ++ ['\n'],
    Nat.toDigits 10 hits ++ ' ' :: Nat.toDigits 10 misses ++ ' ' :: Nat.toDigits 10 evictions ++
      ['\n'])

/-- `main` on the three numbers and the content of the trace. The number of sets, computed
as a `double`, must fit an `int`. -/
def main (rule : IntRule) (s E b : ℕ) (tr : CStr) : Option (CStr × CStr) :=
  if s ≤ 30 then
    (simulateFile rule intMax (geometry s b) ⟨cacheCreate (2 ^ s) E, 0, 0, 0⟩ tr).map fun sim =>
      printSummary sim.u sim.v sim.w
  else none

/-! ## A line of a trace -/

/-- A line of a trace : white space, the operation, white space, the digits of the address,
a comma, and the digits of the size. -/
structure Row where
  indent : CStr
  op : Char
  gap : CStr
  addr : CStr
  size : CStr
  indent_space : ∀ c ∈ indent, isspace c = true
  op_word : isspace op = false
  gap_ne : gap ≠ []
  gap_space : ∀ c ∈ gap, isspace c = true
  addr_ne : addr ≠ []
  addr_hex : ∀ c ∈ addr, c.isHexDigit = true
  addr_lt : ofHex addr < 2 ^ 64
  size_ne : size ≠ []
  size_digit : ∀ c ∈ size, c.isDigit = true

/-- The characters of a line. -/
def Row.text (r : Row) : CStr :=
  r.indent ++ r.op :: r.gap ++ r.addr ++ ',' :: r.size ++ ['\n']

/-- The number of a block of `2 ^ b` bytes, of which `n` bits count. -/
def blockOf (n b addr : ℕ) : ℕ :=
  addr / 2 ^ b % 2 ^ n

/-- The operation of a line, on a block. -/
def Row.ref (n b : ℕ) (r : Row) : Op × ℕ :=
  (opOf r.op, blockOf n b (ofHex r.addr))

theorem isspace_of_isHexDigit {c : Char} (h : c.isHexDigit = true) : isspace c = false := by
  have hrange : 48 ≤ c.toNat := by
    simp only [Char.isHexDigit, Char.isDigit, Bool.or_eq_true, Bool.and_eq_true,
      decide_eq_true_eq, ge_iff_le, UInt32.le_iff_toNat_le] at h
    rcases h with (h | h) | h
    · exact h.1
    · exact le_trans (by decide) h.1
    · exact le_trans (by decide) h.1
  simp only [isspace, decide_eq_false_iff_not]
  rintro (rfl | hc)
  · exact absurd hrange (by decide)
  · omega

theorem scanSign_of_isHexDigit {c : Char} {s : CStr} (h : c.isHexDigit = true) :
    scanSign (c :: s) = (false, c :: s) := by
  unfold scanSign
  split
  · rename_i heq
    obtain ⟨rfl, -⟩ := List.cons.inj heq
    exact absurd h (by decide)
  · rename_i heq
    obtain ⟨rfl, -⟩ := List.cons.inj heq
    exact absurd h (by decide)
  · rfl

/-- Digits do not begin with a `0x`. -/
theorem skip0x_digits {digits s : CStr} (h : ∀ c ∈ digits, c.isHexDigit = true) :
    skip0x (digits ++ ',' :: s) = digits ++ ',' :: s := by
  unfold skip0x
  split
  · rename_i heq
    rcases digits with _ | ⟨c, _ | ⟨c', digits⟩⟩
    · cases heq
    · simp at heq
    · obtain ⟨-, heq⟩ := List.cons.inj heq
      obtain ⟨rfl, -⟩ := List.cons.inj heq
      exact absurd (h 'x' (by simp)) (by decide)
  · rename_i heq
    rcases digits with _ | ⟨c, _ | ⟨c', digits⟩⟩
    · cases heq
    · simp at heq
    · obtain ⟨-, heq⟩ := List.cons.inj heq
      obtain ⟨rfl, -⟩ := List.cons.inj heq
      exact absurd (h 'X' (by simp)) (by decide)
  · rfl

/-- The address of a line converts to the value of its digits. -/
theorem scanHex_row (r : Row) (rest : CStr) :
    scanHex (r.gap ++ (r.addr ++ ',' :: rest)) = (some (ofHex r.addr), ',' :: rest) := by
  obtain ⟨c, ds, hds⟩ := List.exists_cons_of_ne_nil r.addr_ne
  have hc := r.addr_hex c (by simp [hds])
  have hdrop : (r.gap ++ (r.addr ++ ',' :: rest)).dropWhile isspace = r.addr ++ ',' :: rest := by
    rw [List.dropWhile_append_of_pos r.gap_space, hds, List.cons_append,
      List.dropWhile_cons_of_neg (by simp [isspace_of_isHexDigit hc])]
  have hsign : scanSign (r.addr ++ ',' :: rest) = (false, r.addr ++ ',' :: rest) := by
    rw [hds, List.cons_append, scanSign_of_isHexDigit hc]
  have htake : (r.addr ++ ',' :: rest).takeWhile Char.isHexDigit = r.addr := by
    rw [List.takeWhile_append_of_pos r.addr_hex, List.takeWhile_cons_of_neg (by decide),
      List.append_nil]
  rw [scanHex, hdrop, hsign]
  simp only [skip0x_digits r.addr_hex, htake, if_neg r.addr_ne, Nat.not_le.2 r.addr_lt, if_false,
    Bool.false_eq_true]
  rw [List.dropWhile_append_of_pos r.addr_hex, List.dropWhile_cons_of_neg (by decide)]

/-- The rest of a line is skipped, with the white space behind it. -/
theorem skipSize_row (r : Row) (rest : CStr) :
    skipSize (',' :: (r.size ++ '\n' :: rest)) = rest.dropWhile isspace := by
  obtain ⟨c, ds, hds⟩ := List.exists_cons_of_ne_nil r.size_ne
  have hc := r.size_digit c (by simp [hds])
  have hsign : scanSign ((r.size ++ '\n' :: rest).dropWhile isspace) =
      (false, r.size ++ '\n' :: rest) := by
    rw [hds, List.cons_append, List.dropWhile_cons_of_neg (by simp [isspace_of_isDigit hc]),
      scanSign_of_isDigit hc]
  have htake : (r.size ++ '\n' :: rest).takeWhile Char.isDigit = r.size := by
    rw [List.takeWhile_append_of_pos r.size_digit, List.takeWhile_cons_of_neg (by decide),
      List.append_nil]
  simp only [skipSize, hsign, htake, if_neg r.size_ne]
  rw [List.dropWhile_append_of_pos r.size_digit, List.dropWhile_cons_of_neg (by decide),
    List.dropWhile_cons_of_pos isspace_newline]

theorem scanAddr_row (r : Row) (rest : CStr) :
    scanAddr (r.gap ++ (r.addr ++ ',' :: (r.size ++ '\n' :: rest))) =
      (some (ofHex r.addr), rest.dropWhile isspace) := by
  rw [scanAddr, scanHex_row]
  dsimp only
  rw [skipSize_row]

theorem scanWord_row (r : Row) (rest : CStr) :
    scanWord (r.text ++ rest) =
      ([r.op], r.gap ++ (r.addr ++ ',' :: (r.size ++ '\n' :: rest))) := by
  obtain ⟨g, gs, hgs⟩ := List.exists_cons_of_ne_nil r.gap_ne
  have hg := r.gap_space g (by simp [hgs])
  have hop : (!isspace r.op) = true := by simp [r.op_word]
  have htext : r.text ++ rest =
      r.indent ++ r.op :: (r.gap ++ (r.addr ++ ',' :: (r.size ++ '\n' :: rest))) := by
    simp [Row.text]
  rw [htext, scanWord, List.dropWhile_append_of_pos r.indent_space,
    List.dropWhile_cons_of_neg (by simp [r.op_word]), hgs]
  simp only [List.takeWhile_cons, List.dropWhile_cons, List.cons_append, hop, hg, if_true,
    Bool.not_true, Bool.false_eq_true, if_false]

/-! ## The loop on the lines of a trace -/

/-- What is decoded from an address is the set and the tag of its block. -/
theorem decode_block (hs : s ≤ 30) (hsb : s + b ≤ 63) (ht : maskWidth rule (64 - s - b) = some kt)
    {addr : ℕ} (haddr : addr < 2 ^ 64) :
    ∃ S tag, decode rule (geometry s b) (BitVec.ofNat 64 addr) = some (S, tag) ∧
      S.toNat = blockOf (s + kt) b addr % 2 ^ s ∧
      UInt64.ofBitVec tag = blockTag s (blockOf (s + kt) b addr) := by
  have hkt := maskWidth_lt ht
  obtain ⟨S, tag, hdec, hS, htag⟩ := decode_eq hsb ht (setWidth_ok hs) (BitVec.ofNat 64 addr)
  have hdiv : blockOf (s + kt) b addr / 2 ^ s = addr / 2 ^ b / 2 ^ s % 2 ^ kt := by
    rw [blockOf, Nat.pow_add, Nat.mod_mul_right_div_self]
  rw [BitVec.toNat_ofNat, Nat.mod_eq_of_lt haddr] at hS htag
  refine ⟨S, tag, hdec, ?_, UInt64.toNat_inj.1 ?_⟩
  · rw [hS, blockOf, Nat.pow_add, Nat.mod_mul_right_mod]
  · have hlt : blockOf (s + kt) b addr / 2 ^ s < 2 ^ 64 := by
      rw [hdiv]
      exact (Nat.mod_lt _ (Nat.two_pow_pos kt)).trans
        (Nat.pow_lt_pow_right (by decide) (by omega))
    rw [blockTag, UInt64.toNat_ofNat', Nat.mod_eq_of_lt hlt, hdiv]
    rwa [Nat.add_comm s b, Nat.pow_add, ← Nat.div_div_eq_div_mul] at htag

/-- White space in front of a line is skipped anyway. -/
theorem pass_dropWhile {sim : σ} : pass access rule cache sim (tr.dropWhile isspace) =
    pass access rule cache sim tr := by
  have hword : scanWord (tr.dropWhile isspace) = scanWord tr := by
    rw [scanWord, scanWord, List.dropWhile_idempotent]
  rw [pass, pass, hword]

theorem readTrace_dropWhile {sim : σ} : readTrace access rule cache sim (tr.dropWhile isspace) =
    readTrace access rule cache sim tr := by
  rw [readTrace, readTrace, pass_dropWhile]

/-- An iteration on a line is a step of the simulation. -/
theorem pass_row (hs : s ≤ 30) (hsb : s + b ≤ 63) (ht : maskWidth rule (64 - s - b) = some kt)
    (r : Row) (rest : CStr) :
    pass (simStep max) rule (geometry s b) sim (r.text ++ rest) =
      (simStep max sim (blockAccess s (r.ref (s + kt) b))).map fun sim' =>
        some (sim', rest.dropWhile isspace) := by
  obtain ⟨S, tag, hdec, hS, htag⟩ := decode_block hs hsb ht r.addr_lt
  rw [pass, scanWord_row]
  dsimp only
  rw [scanAddr_row]
  by_cases hI : r.op = 'I'
  · have hop : (blockAccess s (r.ref (s + kt) b)).op = .I := if_pos hI
    rw [if_pos hI, simStep, if_pos hop]
    rfl
  · rw [if_neg hI]
    dsimp only
    rw [hdec, Option.bind_eq_bind, Option.bind_some]
    dsimp only
    rw [hS, htag]
    exact bind_pure_comp _ _

/-- The loop on lines of a trace is the simulation of their accesses. -/
theorem simulateFile_rows (hs : s ≤ 30) (hsb : s + b ≤ 63)
    (ht : maskWidth rule (64 - s - b) = some kt) (rows : List Row) (sim : Sim) :
    simulateFile rule max (geometry s b) sim (rows.flatMap Row.text) =
      (rows.map fun r => blockAccess s (r.ref (s + kt) b)).foldlM (simStep max) sim := by
  induction rows generalizing sim with
  | nil => exact readTrace_end rfl
  | cons r rows ih =>
    rw [List.flatMap_cons, simulateFile, readTrace, pass_row hs hsb ht, List.map_cons,
      List.foldlM_cons]
    cases simStep max sim (blockAccess s (r.ref (s + kt) b)) with
    | none => rfl
    | some sim' =>
      dsimp only [Option.map_some]
      rw [readTrace_dropWhile]
      exact ih sim'

/-- On a trace of less than `2 ^ 30` lines, with two lines a set at least, `csim` prints the
counts that the history of the trace's blocks gives, with as many bits of a block's number as
the two masks keep. -/
theorem main_rows (rule : IntRule) (hs : s ≤ 30) (hsb : s + b ≤ 63) (hE : 2 ≤ E)
    (ht : maskWidth rule (64 - s - b) = some kt) (rows : List Row) (hlen : rows.length < 2 ^ 30) :
    main rule s E b (rows.flatMap Row.text) =
      let h := history (rows.map (Row.ref (s + kt) b))
      some (printSummary (countOf (Hits s E) h) (h.length - countOf (Hits s E) h)
        (countOf (Displaces s E) h)) := by
  have hkt := maskWidth_lt ht
  have hmap : (rows.map fun r => blockAccess s (r.ref (s + kt) b)) =
      (rows.map (Row.ref (s + kt) b)).map (blockAccess s) := by
    rw [List.map_map]
    rfl
  have hset : ∀ a ∈ (rows.map (Row.ref (s + kt) b)).map (blockAccess s), a.op ≠ .I →
      a.set < 2 ^ s := by
    intro a ha _
    obtain ⟨r, -, rfl⟩ := List.mem_map.1 ha
    exact Nat.mod_lt _ (Nat.two_pow_pos s)
  have hnarrow : ∀ r ∈ rows.map (Row.ref (s + kt) b), r.2 / 2 ^ s < 2 ^ 64 := by
    intro r hr
    obtain ⟨row, -, rfl⟩ := List.mem_map.1 hr
    have hlt : blockOf (s + kt) b (ofHex row.addr) < 2 ^ (s + kt) :=
      Nat.mod_lt _ (Nat.two_pow_pos _)
    exact (Nat.div_le_self _ _).trans_lt
      (hlt.trans_le (Nat.pow_le_pow_right (by decide) (by omega)))
  have hmax : ((2 * (0 + ((rows.map (Row.ref (s + kt) b)).map (blockAccess s)).length) : ℕ) : ℕ∞) ≤
      (intMax : ℕ∞) := by
    rw [intMax, List.length_map, List.length_map]
    exact_mod_cast (by omega : 2 * (0 + rows.length) ≤ 2 ^ 31 - 1)
  obtain ⟨sim, hrun, hsim⟩ := simulates_run hE _ simulates_init hset hmax
  have hf := follows_run (by omega : 0 < E) _ hnarrow
  have htotal := hf.total
  have hmisses : sim.v = (history (rows.map (Row.ref (s + kt) b))).length -
      countOf (Hits s E) (history (rows.map (Row.ref (s + kt) b))) := by
    rw [hsim.misses, ← hf.hits]
    exact Nat.eq_sub_of_add_eq' htotal
  rw [main, if_pos hs, simulateFile_rows hs hsb ht, hmap, hrun, Option.map_some, hmisses,
    hsim.hits, hsim.evictions]
  exact congrArg some (congrArg₂ (fun u w => printSummary u _ w) hf.hits hf.evictions)

/-- With 16 sets of blocks of 16 bytes the tag should have 56 bits. On x86 the mask keeps 24,
and addresses `10` and `100000010` are in one block. -/
theorem main_rows_three :
    main .x86 4 2 4 " L 10,4\n M 20,4\n S 100000010,1\n".toList = some (printSummary 2 2 0) :=
  (@main_rows 4 4 24 2 .x86 (by decide) (by decide) (by decide) rfl
    [⟨[' '], 'L', [' '], "10".toList, ['4'], List.all_eq_true.1 rfl, rfl, by decide,
      List.all_eq_true.1 rfl, by decide, List.all_eq_true.1 rfl, by decide, by decide,
      List.all_eq_true.1 rfl⟩,
    ⟨[' '], 'M', [' '], "20".toList, ['4'], List.all_eq_true.1 rfl, rfl, by decide,
      List.all_eq_true.1 rfl, by decide, List.all_eq_true.1 rfl, by decide, by decide,
      List.all_eq_true.1 rfl⟩,
    ⟨[' '], 'S', [' '], "100000010".toList, ['1'], List.all_eq_true.1 rfl, rfl, by decide,
      List.all_eq_true.1 rfl, by decide, List.all_eq_true.1 rfl, by decide, by decide,
      List.all_eq_true.1 rfl⟩] (by decide)).trans (by decide)

end Csim

end ClassProjects
