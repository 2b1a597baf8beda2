import Mathlib.Algebra.Group.Nat.Defs
import Mathlib.Tactic.Common

/-!
# Addresses

How `simulate` takes the set index and the tag out of an address. The masks are built in
`int`, 32 bits wide, and converted to 64 bits. What a shift that does not fit an `int` gives
is a parameter (`IntRule`) : the result is undefined, or it wraps around.

The width of the tag is `64 - s - b`, which nothing keeps above 0. With a width of 0 or less
the shifts by it and by its distance from 64 are undefined, and wrap around on x86.

The tag's mask is as wide as the tag only if the tag has at most 31 bits. Then two addresses
have the same set and tag exactly if they are in the same block. Otherwise the masks are
undefined, or bits of the address are lost and addresses of different blocks are confused
(`decodes_iff`).
-/

namespace ClassProjects

namespace Csim

/-- `s`, `b` and `t` of a `Cache`. -/
structure Geometry where
  s : ℕ
  b : ℕ
  t : ℤ

/-- The geometry that `Cache_create` stores. -/
def geometry (s b : ℕ) : Geometry :=
  ⟨s, b, 64 - s - b⟩

/-- The rules for `int` : those of the C standard, where no result and no shift may be too
large ; results that wrap around, with shifts of less than 32 ; and x86, which also takes
the shift modulo 32. A shift of an address may be less than 64, and x86 takes it modulo 64. -/
inductive IntRule
  | standard | wrapping | x86

/-- `1 << c`, `none` if it is undefined. -/
def shiftOne (rule : IntRule) (c : ℤ) : Option (BitVec 32) :=
  match rule with
  | .standard => if 0 ≤ c ∧ c < 31 then some (1#32 <<< c.toNat) else none
  | .wrapping => if 0 ≤ c ∧ c < 32 then some (1#32 <<< c.toNat) else none
  | .x86 => some (1#32 <<< (c % 32).toNat)

/-- `(1 << c) - 1`. -/
def mask (rule : IntRule) (c : ℤ) : Option (BitVec 32) :=
  (shiftOne rule c).map (· - 1#32)

/-- `addr >> c`, `none` if it is undefined. -/
def shiftAddr (rule : IntRule) (addr : BitVec 64) (c : ℤ) : Option (BitVec 64) :=
  match rule with
  | .standard | .wrapping => if 0 ≤ c ∧ c < 64 then some (addr >>> c.toNat) else none
  | .x86 => some (addr >>> (c % 64).toNat)

/-- The set index `S`, an `unsigned int`, and the tag that `simulate` decodes. -/
def decode (rule : IntRule) (cache : Geometry) (addr : BitVec 64) :
    Option (BitVec 32 × BitVec 64) := do
  let high ← shiftAddr rule addr (64 - cache.t)
  let tmask ← mask rule cache.t
  let tag := high &&& tmask.signExtend 64
  let low ← shiftAddr rule addr cache.b
  let smask ← mask rule cache.s
  let S := (low &&& smask.signExtend 64).setWidth 32
  some (S, tag)

/-- A tag of width -1 : x86 shifts the address by 65 modulo 64, and the mask has 31 bits. -/
example : decode .standard (geometry 4 61) 8 = none ∧
    decode .x86 (geometry 4 61) 8 = some (0, 4) := by
  decide

variable {rule : IntRule} {s b k : ℕ}

/-! ## The masks -/

/-- The bits a mask has, if it is defined. -/
def maskWidth : IntRule → ℕ → Option ℕ
  | .standard, c => if c < 31 then some c else none
  | .wrapping, c => if c < 32 then some c else none
  | .x86, c => some (c % 32)

theorem signExtend_mask :
    ∀ k < 32, (1#32 <<< k - 1#32).signExtend 64 = BitVec.ofNat 64 (2 ^ k - 1) := by
  decide

theorem mask_eq (rule : IntRule) (c : ℕ) :
    mask rule c = (maskWidth rule c).map fun k => 1#32 <<< k - 1#32 := by
  have hmod : ((c : ℤ) % 32).toNat = c % 32 := by omega
  cases rule with
  | standard =>
    rw [mask, shiftOne, maskWidth]
    split_ifs <;> first | rfl | omega
  | wrapping =>
    rw [mask, shiftOne, maskWidth]
    split_ifs <;> first | rfl | omega
  | x86 =>
    rw [mask, shiftOne, maskWidth, hmod]
    rfl

theorem shiftAddr_eq (rule : IntRule) (addr : BitVec 64) {c : ℕ} (hc : c < 64) :
    shiftAddr rule addr c = some (addr >>> c) := by
  cases rule with
  | standard | wrapping => exact if_pos (by omega)
  | x86 =>
    have hmod : ((c : ℤ) % 64).toNat = c := by omega
    rw [shiftAddr, hmod]

/-- A tag that is there has its width, and lies above the block's and the set's bits. -/
theorem geometry_t (hsb : s + b ≤ 63) : (geometry s b).t = ((64 - s - b : ℕ) : ℤ) ∧
    64 - (geometry s b).t = ((s + b : ℕ) : ℤ) := by
  simp only [geometry]
  omega

theorem maskWidth_lt {c : ℕ} (h : maskWidth rule c = some k) : k < 32 ∧ k ≤ c := by
  cases rule with
  | standard =>
    simp only [maskWidth, Option.ite_none_right_eq_some, Option.some.injEq] at h
    omega
  | wrapping =>
    simp only [maskWidth, Option.ite_none_right_eq_some, Option.some.injEq] at h
    omega
  | x86 =>
    simp only [maskWidth, Option.some.injEq] at h
    omega

/-- Masking keeps the lowest bits. -/
theorem toNat_and_mask (hk : k < 32) (x : BitVec 64) :
    (x &&& (1#32 <<< k - 1#32).signExtend 64).toNat = x.toNat % 2 ^ k := by
  have hpow : 2 ^ k ≤ 2 ^ 32 := Nat.pow_le_pow_right (by decide) (Nat.le_of_lt hk)
  have hlt : 2 ^ k - 1 < 2 ^ 64 := by omega
  rw [signExtend_mask k hk, BitVec.toNat_and, BitVec.toNat_ofNat, Nat.mod_eq_of_lt hlt,
    Nat.and_two_pow_sub_one_eq_mod]

/-- What is decoded from an address, with the widths of the two masks. -/
theorem decode_eq {kt ks : ℕ} (hsb : s + b ≤ 63) (ht : maskWidth rule (64 - s - b) = some kt)
    (hs : maskWidth rule s = some ks) (addr : BitVec 64) :
    ∃ S tag, decode rule (geometry s b) addr = some (S, tag) ∧
      S.toNat = addr.toNat / 2 ^ b % 2 ^ ks ∧ tag.toNat = addr.toNat / 2 ^ (s + b) % 2 ^ kt := by
  have hkt := (maskWidth_lt ht).1
  have hks := (maskWidth_lt hs).1
  obtain ⟨hwidth, hhigh⟩ := geometry_t hsb
  have hdec : decode rule (geometry s b) addr =
      some (((addr >>> b) &&& (1#32 <<< ks - 1#32).signExtend 64).setWidth 32,
        (addr >>> (s + b)) &&& (1#32 <<< kt - 1#32).signExtend 64) := by
    rw [decode, hhigh, hwidth, shiftAddr_eq rule addr (by omega : s + b < 64), mask_eq, ht]
    simp only [geometry]
    rw [shiftAddr_eq rule addr (by omega : b < 64), mask_eq, hs]
    rfl
  refine ⟨_, _, hdec, ?_, ?_⟩
  · have hlt : addr.toNat / 2 ^ b % 2 ^ ks < 2 ^ 32 :=
      Nat.lt_of_lt_of_le (Nat.mod_lt _ (Nat.two_pow_pos _))
        (Nat.pow_le_pow_right (by decide) (Nat.le_of_lt hks))
    rw [BitVec.toNat_setWidth, toNat_and_mask hks, BitVec.toNat_ushiftRight,
      Nat.shiftRight_eq_div_pow, Nat.mod_eq_of_lt hlt]
  · rw [toNat_and_mask hkt, BitVec.toNat_ushiftRight, Nat.shiftRight_eq_div_pow]

/-! ## Blocks -/

/-- The set index is one of the cache's, and set and tag determine the block. -/
def Decodes (rule : IntRule) (s b : ℕ) : Prop :=
  ∀ x y : BitVec 64, ∃ Sx tagx Sy tagy, decode rule (geometry s b) x = some (Sx, tagx) ∧
    decode rule (geometry s b) y = some (Sy, tagy) ∧ Sx.toNat < 2 ^ s ∧
    (Sx = Sy ∧ tagx = tagy ↔ x >>> b = y >>> b)

/-- The widest tag whose mask is right. -/
def maxTag : IntRule → ℕ
  | .standard => 30
  | .wrapping => 31
  | .x86 => 31

theorem maskWidth_eq {c : ℕ} (h : c ≤ maxTag rule) : maskWidth rule c = some c := by
  cases rule with
  | standard => exact if_pos (by simp only [maxTag] at h; omega)
  | wrapping => exact if_pos (by simp only [maxTag] at h; omega)
  | x86 =>
    simp only [maxTag] at h
    rw [maskWidth, Nat.mod_eq_of_lt (by omega)]

/-- A mask for too many bits is undefined, or has less. -/
theorem maskWidth_of_lt {c : ℕ} (h : maxTag rule < c) (hk : maskWidth rule c = some k) : k < c := by
  cases rule with
  | standard =>
    simp only [maskWidth, maxTag, Option.ite_none_right_eq_some, Option.some.injEq] at h hk
    omega
  | wrapping =>
    simp only [maskWidth, maxTag, Option.ite_none_right_eq_some, Option.some.injEq] at h hk
    omega
  | x86 =>
    simp only [maskWidth, maxTag, Option.some.injEq] at h hk
    omega

theorem setWidth_ok (hs : s ≤ 30) : maskWidth rule s = some s :=
  maskWidth_eq (by cases rule <;> simp only [maxTag] <;> omega)

/-- An address is its tag, its set index and its offset in the block. -/
theorem block_eq_iff (s b : ℕ) (x y : BitVec 64) :
    (x.toNat / 2 ^ b % 2 ^ s = y.toNat / 2 ^ b % 2 ^ s ∧
      x.toNat / 2 ^ (s + b) = y.toNat / 2 ^ (s + b)) ↔ x >>> b = y >>> b := by
  have hsplit : ∀ z : BitVec 64, z.toNat / 2 ^ (s + b) = z.toNat / 2 ^ b / 2 ^ s := by
    intro z
    rw [Nat.div_div_eq_div_mul, ← Nat.pow_add, Nat.add_comm]
  rw [← BitVec.toNat_inj, BitVec.toNat_ushiftRight, BitVec.toNat_ushiftRight,
    Nat.shiftRight_eq_div_pow, Nat.shiftRight_eq_div_pow, hsplit, hsplit]
  constructor
  · rintro ⟨hmod, hdiv⟩
    rw [← Nat.div_add_mod (x.toNat / 2 ^ b) (2 ^ s), hmod, hdiv, Nat.div_add_mod]
  · intro h
    rw [h]
    exact ⟨rfl, rfl⟩

/-- What is above the block's and the set's bits fits in the tag. -/
theorem tag_fits (hsb : s + b ≤ 63) (z : BitVec 64) :
    z.toNat / 2 ^ (s + b) % 2 ^ (64 - s - b) = z.toNat / 2 ^ (s + b) := by
  have hpow : 2 ^ (64 - s - b) * 2 ^ (s + b) = 2 ^ 64 := by
    rw [← Nat.pow_add]
    congr 1
    omega
  refine Nat.mod_eq_of_lt ((Nat.div_lt_iff_lt_mul (Nat.two_pow_pos _)).2 ?_)
  rw [hpow]
  exact z.isLt

/-- Two addresses that differ in a bit of the tag behind the mask. -/
theorem decode_confuses (hs : s ≤ 30) (hsb : s + b ≤ 63) (hlt : k < 64 - s - b)
    (hk : maskWidth rule (64 - s - b) = some k) {Sx Sy : BitVec 32} {tagx tagy : BitVec 64}
    (hx : decode rule (geometry s b) 0 = some (Sx, tagx))
    (hy : decode rule (geometry s b) (BitVec.ofNat 64 (2 ^ (s + b + k))) = some (Sy, tagy)) :
    (Sx = Sy ∧ tagx = tagy) ∧ 0#64 >>> b ≠ BitVec.ofNat 64 (2 ^ (s + b + k)) >>> b := by
  have hbit : (BitVec.ofNat 64 (2 ^ (s + b + k))).toNat = 2 ^ (s + b + k) := by
    rw [BitVec.toNat_ofNat, Nat.mod_eq_of_lt (Nat.pow_lt_pow_right (by decide) (by omega))]
  obtain ⟨Sx', tagx', hx', hSx, htx⟩ := decode_eq hsb hk (setWidth_ok hs) 0
  obtain ⟨Sy', tagy', hy', hSy, hty⟩ := decode_eq hsb hk (setWidth_ok hs)
    (BitVec.ofNat 64 (2 ^ (s + b + k)))
  obtain ⟨rfl, rfl⟩ := Prod.mk.inj (Option.some.inj (hx'.symm.trans hx))
  obtain ⟨rfl, rfl⟩ := Prod.mk.inj (Option.some.inj (hy'.symm.trans hy))
  have hset : 2 ^ (s + b + k) / 2 ^ b = 2 ^ (s + k) := by
    rw [Nat.pow_div (by omega) (by decide)]
    congr 1
    omega
  have htag : 2 ^ (s + b + k) / 2 ^ (s + b) = 2 ^ k := by
    rw [Nat.pow_div (by omega) (by decide)]
    congr 1
    omega
  have hzero : (0 : BitVec 64).toNat = 0 := rfl
  simp only [hbit, hzero, Nat.zero_mod, Nat.zero_div, hset, htag,
    Nat.mod_self] at hSx htx hSy hty
  refine ⟨⟨BitVec.eq_of_toNat_eq ?_, BitVec.eq_of_toNat_eq ?_⟩, fun heq => ?_⟩
  · rw [hSx, hSy, Nat.pow_add, Nat.mul_mod_right]
  · rw [htx, hty]
  · have hnat := congrArg BitVec.toNat heq
    rw [BitVec.toNat_ushiftRight, BitVec.toNat_ushiftRight, hbit, Nat.shiftRight_eq_div_pow,
      Nat.shiftRight_eq_div_pow, hset, BitVec.toNat_ofNat, Nat.zero_mod, Nat.zero_div] at hnat
    exact absurd hnat (Nat.ne_of_lt (Nat.two_pow_pos _))

/-- Addresses are decoded without confusion if the tag has at most 31 bits, or 30 by the
standard, and not otherwise. -/
theorem decodes_iff (rule : IntRule) (hs : s ≤ 30) (hsb : s + b ≤ 63) :
    Decodes rule s b ↔ 64 - s - b ≤ maxTag rule := by
  constructor
  · intro h
    by_contra hwide
    have hwide := Nat.lt_of_not_le hwide
    cases hk : maskWidth rule (64 - s - b) with
    | none =>
      obtain ⟨Sx, tagx, -, -, hx, -⟩ := h 0 0
      obtain ⟨hwidth, hhigh⟩ := geometry_t hsb
      rw [decode, hhigh, hwidth, shiftAddr_eq rule 0 (by omega : s + b < 64), mask_eq, hk] at hx
      cases hx
    | some k =>
      -- the bit of the tag behind the mask makes the difference that is lost
      have hlt := maskWidth_of_lt hwide hk
      obtain ⟨Sx, tagx, Sy, tagy, hx, hy, -, hiff⟩ := h 0 (BitVec.ofNat 64 (2 ^ (s + b + k)))
      obtain ⟨hsame, hne⟩ := decode_confuses hs hsb hlt hk hx hy
      exact hne (hiff.1 hsame)
  · intro hle x y
    obtain ⟨Sx, tagx, hx, hSx, htx⟩ := decode_eq hsb (maskWidth_eq hle) (setWidth_ok hs) x
    obtain ⟨Sy, tagy, hy, hSy, hty⟩ := decode_eq hsb (maskWidth_eq hle) (setWidth_ok hs) y
    refine ⟨Sx, tagx, Sy, tagy, hx, hy, ?_, ?_⟩
    · rw [hSx]
      exact Nat.mod_lt _ (Nat.two_pow_pos s)
    · rw [← block_eq_iff s b, ← BitVec.toNat_inj, ← BitVec.toNat_inj (x := tagx), hSx, hSy, htx,
        hty, tag_fits hsb, tag_fits hsb]

/-- A tag of 24 bits. -/
theorem decodes_wide_offset : Decodes .standard 10 30 :=
  (decodes_iff .standard (by decide) (by decide)).2 (by decide)

/-- Sixteen sets of blocks of 16 bytes : the tag should have 56 bits. The masks are undefined,
and on x86 the tag has 24 bits, so two blocks are confused. -/
theorem not_decodes :
    ¬Decodes .standard 4 4 ∧ ¬Decodes .wrapping 4 4 ∧ ¬Decodes .x86 4 4 ∧
    decode .standard (geometry 4 4) 0 = none ∧ decode .wrapping (geometry 4 4) 0 = none ∧
    decode .x86 (geometry 4 4) 0 = some (0, 0) ∧
    decode .x86 (geometry 4 4) (BitVec.ofNat 64 (2 ^ 32)) = some (0, 0) := by
  refine ⟨?_, ?_, ?_, by decide, by decide, by decide, by decide⟩ <;> intro h <;>
    obtain ⟨Sx, tagx, Sy, tagy, hx, hy, -, hiff⟩ := h 0 (BitVec.ofNat 64 (2 ^ 32))
  · have hx' : decode .standard (geometry 4 4) 0 = none := by decide
    exact Option.some_ne_none _ (hx.symm.trans hx')
  · have hx' : decode .wrapping (geometry 4 4) 0 = none := by decide
    exact Option.some_ne_none _ (hx.symm.trans hx')
  · have hx' : decode .x86 (geometry 4 4) 0 = some (0, 0) := by decide
    have hy' : decode .x86 (geometry 4 4) (BitVec.ofNat 64 (2 ^ 32)) = some (0, 0) := by decide
    obtain ⟨rfl, rfl⟩ := Prod.mk.inj (Option.some.inj (hx'.symm.trans hx))
    obtain ⟨rfl, rfl⟩ := Prod.mk.inj (Option.some.inj (hy'.symm.trans hy))
    exact absurd (hiff.1 ⟨rfl, rfl⟩) (by decide)

end Csim

end ClassProjects
