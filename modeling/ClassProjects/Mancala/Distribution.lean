import ClassProjects.Mancala.Termination

/-!
# How the stones are distributed

The walk without the opponent's store comes back after 13 steps, and meets every other
position once in between (`iterate_advance_eq_iff`). So the number of stones that a sowing
puts into a pit depends on where the pit is in the first lap (`count_walk`), and the pits
after a move are known one by one (`placeStones_exact`). A pit that overflows holds its
number modulo `2 ^ 64`.
-/

namespace ClassProjects

namespace Mancala

variable {b : MancalaBoard} {pits ks : List ℤ} {i j k : ℤ} {m n r : ℕ}

/-! ## Laps -/

/-- `landIndex` on any 14 pits, as a formula for the walk. -/
theorem iterate_advance_eq (hi : 0 ≤ i ∧ i < 14) (hj : 0 ≤ j ∧ j < 14) (hij : i ≠ j) (n : ℕ) :
    (advance j)^[n] i =
      if (j - i) % 14 ≤ (n : ℤ) % 13 then (i + n % 13 + 1) % 14 else (i + n % 13) % 14 := by
  have h := landIndex_eq (List.length_replicate : (List.replicate 14 (0 : ℤ)).length = 14) hi hj
    hij n
  rw [← h]
  rfl

/-- The walk is at the same position again after whole laps, and only then. -/
theorem iterate_advance_eq_iff (hi : 0 ≤ i ∧ i < 14) (hj : 0 ≤ j ∧ j < 14) (hij : i ≠ j) :
    (advance j)^[m] i = (advance j)^[n] i ↔ m % 13 = n % 13 := by
  rw [iterate_advance_eq hi hj hij, iterate_advance_eq hi hj hij]
  split_ifs <;> omega

/-- Every position but `j` is reached in the first lap. -/
theorem exists_iterate_advance (hi : 0 ≤ i ∧ i < 14) (hj : 0 ≤ j ∧ j < 14) (hij : i ≠ j)
    (hk : 0 ≤ k ∧ k < 14) (hkj : k ≠ j) :
    ∃ r : ℕ, (1 ≤ r ∧ r ≤ 13) ∧ (advance j)^[r] i = k ∧ (k = i → r = 13) := by
  by_cases hlt : (j - i) % 14 < (k - i - 1) % 14 + 1
  · refine ⟨((k - i - 1) % 14).toNat, by omega, ?_, by omega⟩
    rw [iterate_advance_eq hi hj hij]
    split_ifs <;> omega
  · refine ⟨((k - i - 1) % 14 + 1).toNat, by omega, ?_, by omega⟩
    rw [iterate_advance_eq hi hj hij]
    split_ifs <;> omega

theorem walk_concat (j : ℤ) (n : ℕ) (i : ℤ) :
    walk j (n + 1) i = walk j n i ++ [(advance j)^[n + 1] i] := by
  induction n generalizing i with
  | zero => rfl
  | succ n ih =>
    rw [walk, ih, walk, List.cons_append]
    rfl

theorem getElem?_walk (j : ℤ) (hm : m < n) (i : ℤ) :
    (walk j n i)[m]? = some ((advance j)^[m + 1] i) := by
  induction n with
  | zero => exact absurd hm (Nat.not_lt_zero m)
  | succ n ih =>
    rw [walk_concat]
    rcases Nat.lt_succ_iff_lt_or_eq.1 hm with hlt | rfl
    · rw [List.getElem?_append_left (by rwa [length_walk]), ih hlt]
    · rw [List.getElem?_append_right (by rw [length_walk]), length_walk, Nat.sub_self]
      rfl

/-- How often a walk of `n` steps meets the position at step `r` of the first lap. -/
theorem count_walk (hi : 0 ≤ i ∧ i < 14) (hj : 0 ≤ j ∧ j < 14) (hij : i ≠ j)
    (hr : 1 ≤ r ∧ r ≤ 13) (n : ℕ) :
    (walk j n i).count ((advance j)^[r] i) = (n + 13 - r) / 13 := by
  induction n with
  | zero =>
    rw [walk, List.count_nil]
    omega
  | succ n ih =>
    rw [walk_concat, List.count_append, ih, List.count_singleton]
    simp only [beq_iff_eq, iterate_advance_eq_iff hi hj hij]
    split_ifs <;> omega

/-! ## The pits after a sowing -/

theorem toInt_toInt_add (x y : ℤ) : toInt (toInt x + y) = toInt (x + y) :=
  Int.bmod_add_bmod

theorem index_replace (hi : 0 ≤ i ∧ i < pits.length) (hk : 0 ≤ k) (x : ℤ) :
    index (replace pits i x) k = if k = i then x else index pits k := by
  rw [replace_eq_set hi, index, index, List.getD_eq_getElem?_getD, List.getD_eq_getElem?_getD,
    List.getElem?_set]
  by_cases hki : k = i
  · subst hki
    simp [show k.toNat < pits.length by omega]
  · rw [if_neg hki, if_neg (by omega)]

/-- A pit gets as many stones as the walk meets it. -/
theorem index_addStones (hlen : pits.length = 14) (hint : ∀ x ∈ pits, IsInt x)
    (hks : ∀ k ∈ ks, 0 ≤ k ∧ k < 14) (hk : 0 ≤ k ∧ k < 14) :
    index (addStones pits ks) k = toInt (index pits k + ks.count k) := by
  induction ks generalizing pits with
  | nil =>
    rw [addStones, List.foldl_nil, List.count_nil, Nat.cast_zero, add_zero,
      toInt_eq (hint _ (index_mem (by omega)))]
  | cons k' ks ih =>
    have hk' := hks k' List.mem_cons_self
    have hrest := ih (length_addStone hlen hk') (isInt_replace hint (by omega) (isInt_toInt _))
      fun x hx => hks x (List.mem_cons_of_mem k' hx)
    rw [addStones, List.foldl_cons, ← addStones, hrest, addStone, index_replace (by omega) hk.1,
      List.count_cons]
    by_cases hkk : k = k'
    · subst hkk
      rw [if_pos rfl, toInt_toInt_add, beq_self_eq_true, if_pos rfl]
      congr 1
      push_cast
      omega
    · rw [if_neg hkk, if_neg (by simpa using Ne.symm hkk), Nat.add_zero]

/-- The position of `k` in the first lap of the walk from `i` without `j`, from 1 to 13. -/
def IsPosition (j i k : ℤ) (r : ℕ) : Prop :=
  (1 ≤ r ∧ r ≤ 13) ∧ (walk j 13 i)[r - 1]? = some k

theorem isPosition_iff (hr : 1 ≤ r ∧ r ≤ 13) :
    IsPosition j i k r ↔ (advance j)^[r] i = k := by
  rw [IsPosition, getElem?_walk j (by omega), Nat.sub_add_cancel hr.1, Option.some.injEq]
  exact and_iff_right hr

/-- Every position but `j` has one, and that of the start is the last. -/
theorem exists_isPosition (hi : 0 ≤ i ∧ i < 14) (hj : 0 ≤ j ∧ j < 14) (hij : i ≠ j)
    (hk : 0 ≤ k ∧ k < 14) (hkj : k ≠ j) :
    ∃ r, IsPosition j i k r ∧ (∀ r', IsPosition j i k r' → r' = r) ∧ (k = i → r = 13) := by
  obtain ⟨r, hr, hrk, hlast⟩ := exists_iterate_advance hi hj hij hk hkj
  refine ⟨r, (isPosition_iff hr).2 hrk, fun r' hr' => ?_, hlast⟩
  have hmod := (iterate_advance_eq_iff hi hj hij).1 (((isPosition_iff hr'.1).1 hr').trans hrk.symm)
  have hr'13 := hr'.1
  omega

/-- Of an allowed move with `n` stones from pit `i`, `j` being the opponent's store :
`placeStones` ends, the board keeps its length, pit `j` is unchanged, and a pit at position
`r` of the first lap gets `(n + 13 - r) / 13` stones, in the arithmetic of `Int`. -/
theorem placeStones_exact (h : IsBoard b) (hi : isAllowedMove b i = true) :
    ∃ (b' : MancalaBoard) (n : ℕ), move b i = some b' ∧ index b.pits i = n ∧
      (∀ fuel, 2 * n ≤ fuel → placeStones fuel (replace b.pits i 0) i
        (indexForPlayerStore (nextPlayer b.player)) n = some b'.pits) ∧
      b'.pits.length = b.pits.length ∧
      index b'.pits (indexForPlayerStore (nextPlayer b.player)) =
        index b.pits (indexForPlayerStore (nextPlayer b.player)) ∧
      ∀ k, 0 ≤ k ∧ k < 14 → k ≠ indexForPlayerStore (nextPlayer b.player) →
        ∃ r, IsPosition (indexForPlayerStore (nextPlayer b.player)) i k r ∧
          (∀ r', IsPosition (indexForPlayerStore (nextPlayer b.player)) i k r' → r' = r) ∧
          (k = i → r = 13) ∧
          index b'.pits k =
            toInt ((if k = i then 0 else index b.pits k) + ((n + 13 - r) / 13 : ℕ)) := by
  obtain ⟨hi14, hj, hij, n, hn⟩ := isAllowedMove_spec hi
  have hlen := length_replace_zero h.length hi
  have hlt : 0 ≤ i ∧ i < b.pits.length := by
    rw [h.length]
    exact hi14
  have hint := isInt_replace h.isInt hlt (y := 0) (by decide)
  set j := indexForPlayerStore (nextPlayer b.player) with hjdef
  have hpits : ∀ k, 0 ≤ k ∧ k < 14 →
      index (addStones (replace b.pits i 0) (walk j (n + 1) i)) k =
        toInt ((if k = i then 0 else index b.pits k) + (walk j (n + 1) i).count k) := by
    intro k hk
    rw [index_addStones hlen hint (fun k hk => walk_mem hk) hk, index_replace hlt hk.1]
  have hlen' : (addStones (replace b.pits i 0) (walk j (n + 1) i)).length = b.pits.length := by
    obtain ⟨b'', hb'', hboard, -⟩ := move_decreases h hi
    obtain rfl := Option.some.inj ((move_eq h.length hi hn).symm.trans hb'')
    rw [h.length]
    exact hboard.length
  refine ⟨_, n + 1, move_eq h.length hi hn, hn, fun fuel hf => placeStones_eq hlen hf, hlen', ?_,
    fun k hk hkj => ?_⟩
  · have hcount : (walk j (n + 1) i).count j = 0 :=
      List.count_eq_zero.2 fun hmem => walk_ne hmem rfl
    have hj' : 0 ≤ j ∧ j < b.pits.length := by
      rw [h.length]
      exact hj
    rw [hpits j hj, hcount, if_neg (Ne.symm hij), Nat.cast_zero, add_zero,
      toInt_eq (h.isInt _ (index_mem hj'))]
  · obtain ⟨r, hr, hunique, hlast⟩ := exists_isPosition hi14 hj hij hk hkj
    refine ⟨r, hr, hunique, hlast, ?_⟩
    rw [hpits k hk, ← (isPosition_iff hr.1).1 hr, count_walk hi14 hj hij hr.1]

/-- A lap and a half around the board. -/
theorem placeStones_exact_lap : ∃ (b' : MancalaBoard) (n : ℕ),
    move ⟨[0, 0, 0, 0, 0, 20, 1, 0, 0, 0, 0, 0, 0, 2], .playerA⟩ 5 = some b' ∧ (20 : ℤ) = n ∧
      (∀ fuel, 2 * n ≤ fuel →
        placeStones fuel [0, 0, 0, 0, 0, 0, 1, 0, 0, 0, 0, 0, 0, 2] 5 13 n = some b'.pits) ∧
      b'.pits.length = 14 ∧ index b'.pits 13 = 2 ∧
      ∀ k, 0 ≤ k ∧ k < 14 → k ≠ 13 → ∃ r, IsPosition 13 5 k r ∧
        (∀ r', IsPosition 13 5 k r' → r' = r) ∧ (k = 5 → r = 13) ∧
        index b'.pits k = toInt
          ((if k = 5 then 0 else index [0, 0, 0, 0, 0, 20, 1, 0, 0, 0, 0, 0, 0, 2] k) +
            ((n + 13 - r) / 13 : ℕ)) :=
  placeStones_exact (b := ⟨[0, 0, 0, 0, 0, 20, 1, 0, 0, 0, 0, 0, 0, 2], .playerA⟩) (i := 5)
    (by decide) (by decide)

/-- A pit that is full overflows : one stone makes it negative. -/
theorem placeStones_overflow :
    let b : MancalaBoard := ⟨[1, 2 ^ 63 - 1, 0, 0, 0, 0, 0, 0, 0, 0, 0, 0, 0, 0], .playerA⟩
    IsBoard b ∧ (∀ x ∈ b.pits, 0 ≤ x) ∧ isAllowedMove b 0 = true ∧ IsPosition 13 0 1 1 ∧
      (placeStones 2 (replace b.pits 0 0) 0 13 1).map (index · 1) = some (-2 ^ 63) ∧
      ¬(placeStones 2 (replace b.pits 0 0) 0 13 1).map (index · 1) =
        some (index b.pits 1 + (1 + 13 - 1) / 13) := by
  refine ⟨by decide, by decide, by decide, ⟨by decide, by decide⟩, by decide +kernel,
    by decide +kernel⟩

end Mancala

end ClassProjects
