import ClassProjects.Mancala.Board
import Mathlib.Logic.Function.Iterate

/-!
# Sowing

`placeStones` walks along the positions and leaves out one of them, the opponent's store.
`walk` is that walk, and `placeStones` puts one stone into each of its first positions, as
many as there are stones (`placeStones_eq`). So two calls for each stone are enough fuel.

`landIndex` computes the last position of the walk without walking (`landIndex_walk`). Where
`placeStones` puts its last stone is read off `placeStonesLog`, the same recursion with a
record of the positions.
-/

namespace ClassProjects

namespace Mancala

/-! ## The walk -/

/-- The position that the walk without `j` reaches from `i`. -/
def advance (j i : ℤ) : ℤ :=
  let next := (i + 1) % 14
  if next = j then (next + 1) % 14 else next

/-- The next `n` positions of the walk. -/
def walk (j : ℤ) : ℕ → ℤ → List ℤ
  | 0, _ => []
  | n + 1, i => advance j i :: walk j n (advance j i)

/-- Put one stone into a pit. -/
def addStone (pits : List ℤ) (k : ℤ) : List ℤ :=
  replace pits k (toInt (index pits k + 1))

/-- Put one stone into each pit of a walk. -/
def addStones (pits : List ℤ) (ks : List ℤ) : List ℤ :=
  ks.foldl addStone pits

variable {pits : List ℤ} {i j k : ℤ} {n fuel : ℕ}

theorem advance_mem (j i : ℤ) : 0 ≤ advance j i ∧ advance j i < 14 := by
  simp only [advance]
  split_ifs <;> omega

theorem advance_ne (j i : ℤ) : advance j i ≠ j := by
  simp only [advance]
  split_ifs <;> omega

@[simp] theorem length_walk (j : ℤ) : ∀ (n : ℕ) (i : ℤ), (walk j n i).length = n
  | 0, _ => rfl
  | n + 1, i => by rw [walk, List.length_cons, length_walk j n]

theorem walk_mem : ∀ {n : ℕ} {i : ℤ}, k ∈ walk j n i → 0 ≤ k ∧ k < 14
  | 0, _, hk => absurd hk List.not_mem_nil
  | _ + 1, i, hk => (List.mem_cons.1 hk).elim (fun h => h ▸ advance_mem j i) walk_mem

/-- The walk never meets the position it leaves out. -/
theorem walk_ne : ∀ {n : ℕ} {i : ℤ}, k ∈ walk j n i → k ≠ j
  | 0, _, hk => absurd hk List.not_mem_nil
  | _ + 1, i, hk => (List.mem_cons.1 hk).elim (fun h => h ▸ advance_ne j i) walk_ne

theorem getLast?_walk (j : ℤ) (n : ℕ) (i : ℤ) :
    (walk j (n + 1) i).getLast? = some ((advance j)^[n + 1] i) := by
  induction n generalizing i with
  | zero => rfl
  | succ n ih =>
    rw [walk, walk, List.getLast?_cons_cons, ← walk, ih, ← Function.iterate_succ_apply]

theorem length_addStone (hlen : pits.length = 14) (hk : 0 ≤ k ∧ k < 14) :
    (addStone pits k).length = 14 := by
  rw [addStone, replace_eq_set (by omega), List.length_set, hlen]

/-! ## What `placeStones` does -/

/-- `placeStones` with the positions where it puts the stones. -/
def placeStonesLog : ℕ → List ℤ → ℤ → ℤ → ℤ → Option (List ℤ × List ℤ)
  | 0, _, _, _, _ => none
  | fuel + 1, pits, i, j, n =>
    let next := (i + 1) % pits.length
    if next = j then placeStonesLog fuel pits next j n
    else if n = 1 then some (replace pits next (toInt (index pits next + 1)), [next])
    else (placeStonesLog fuel (replace pits next (toInt (index pits next + 1))) next j (n - 1)).map
      fun r => (r.1, next :: r.2)

theorem placeStonesLog_fst (fuel : ℕ) (pits : List ℤ) (i j n : ℤ) :
    (placeStonesLog fuel pits i j n).map Prod.fst = placeStones fuel pits i j n := by
  induction fuel generalizing pits i n with
  | zero => rfl
  | succ fuel ih =>
    simp only [placeStonesLog, placeStones]
    split_ifs
    · exact ih ..
    · rfl
    · rw [Option.map_map, ← ih]
      rfl

theorem advance_of_ne (h : (i + 1) % 14 ≠ j) : advance j i = (i + 1) % 14 :=
  if_neg h

/-- After a position that is left out comes the one behind it. -/
theorem advance_of_eq (h : (i + 1) % 14 = j) : advance j i = advance j j := by
  simp only [advance]
  split_ifs <;> omega

/-- A call that puts a stone. -/
theorem placeStonesLog_of_ne (hlen : pits.length = 14) (h : (i + 1) % 14 ≠ j) (n : ℤ) :
    placeStonesLog (fuel + 1) pits i j n =
      if n = 1 then some (addStone pits (advance j i), [advance j i])
      else (placeStonesLog fuel (addStone pits (advance j i)) (advance j i) j (n - 1)).map
        fun r => (r.1, advance j i :: r.2) := by
  rw [advance_of_ne h]
  simp only [placeStonesLog, hlen, Nat.cast_ofNat, if_neg h]
  rfl

/-- A call that skips a position. -/
theorem placeStonesLog_of_eq (hlen : pits.length = 14) (h : (i + 1) % 14 = j) (n : ℤ) :
    placeStonesLog (fuel + 1) pits i j n = placeStonesLog fuel pits j j n := by
  simp only [placeStonesLog, hlen, Nat.cast_ofNat, h, if_true]

/-- `placeStones` puts the stones along the walk. -/
abbrev Sows (fuel : ℕ) (pits : List ℤ) (i j : ℤ) (n : ℕ) : Prop :=
  placeStonesLog fuel pits i j n = some (addStones pits (walk j n i), walk j n i)

/-- A position to skip costs one call. -/
theorem sows_of_skip (hlen : pits.length = 14)
    (hput : ∀ {fuel i}, (i + 1) % 14 ≠ j → 2 * n + 1 ≤ fuel → Sows fuel pits i j (n + 1))
    (hfuel : 2 * (n + 1) ≤ fuel) : Sows fuel pits i j (n + 1) := by
  by_cases h : (i + 1) % 14 = j
  · obtain ⟨fuel, rfl⟩ : ∃ f, fuel = f + 1 := ⟨fuel - 1, by omega⟩
    have hj : (j + 1) % 14 ≠ j := by omega
    rw [Sows, placeStonesLog_of_eq hlen h, walk, advance_of_eq h, ← walk]
    exact hput hj (by omega)
  · exact hput h (by omega)

theorem sows_of_put (hlen : pits.length = 14) (h : (i + 1) % 14 ≠ j)
    (hfuel : 2 * n + 1 ≤ fuel) : Sows fuel pits i j (n + 1) := by
  obtain ⟨fuel, rfl⟩ : ∃ f, fuel = f + 1 := ⟨fuel - 1, by omega⟩
  induction n generalizing fuel pits i with
  | zero =>
    rw [Sows, placeStonesLog_of_ne hlen h, if_pos (by omega)]
    rfl
  | succ n ih =>
    have hlen' := length_addStone hlen (advance_mem j i)
    have hrest : Sows fuel (addStone pits (advance j i)) (advance j i) j (n + 1) :=
      sows_of_skip hlen' (fun {fuel i} hi hf => by
        obtain ⟨fuel, rfl⟩ : ∃ f, fuel = f + 1 := ⟨fuel - 1, by omega⟩
        exact ih hlen' hi _ hf) (by omega)
    have hpred : ((n + 1 + 1 : ℕ) : ℤ) - 1 = (n + 1 : ℕ) := by omega
    rw [Sows, placeStonesLog_of_ne hlen h, if_neg (by omega), hpred, hrest]
    rfl

/-- With two calls for each stone, `placeStones` puts them along the walk. -/
theorem placeStonesLog_eq (hlen : pits.length = 14) (hfuel : 2 * (n + 1) ≤ fuel) :
    Sows fuel pits i j (n + 1) :=
  sows_of_skip hlen (sows_of_put hlen) hfuel

theorem placeStones_eq (hlen : pits.length = 14) (hfuel : 2 * (n + 1) ≤ fuel) :
    placeStones fuel pits i j (n + 1 : ℕ) = some (addStones pits (walk j (n + 1) i)) := by
  rw [← placeStonesLog_fst, placeStonesLog_eq hlen hfuel]
  rfl

/-! ## Where the last stone lands -/

/-- One more stone lands one position further on the walk. -/
theorem landIndex_succ (hlen : pits.length = 14) (hi : 0 ≤ i ∧ i < 14) (hj : 0 ≤ j ∧ j < 14)
    (n : ℕ) : landIndex pits i j (n + 1 : ℕ) = advance j (landIndex pits i j n) := by
  simp only [landIndex, advance, hlen]
  split_ifs <;> omega

theorem landIndex_eq (hlen : pits.length = 14) (hi : 0 ≤ i ∧ i < 14) (hj : 0 ≤ j ∧ j < 14)
    (hij : i ≠ j) (n : ℕ) : landIndex pits i j n = (advance j)^[n] i := by
  induction n with
  | zero =>
    simp only [landIndex, hlen, Function.iterate_zero, id_eq]
    split_ifs <;> omega
  | succ n ih => rw [landIndex_succ hlen hi hj, ih, Function.iterate_succ_apply']

/-- A sowing puts its last stone where `landIndex` says. -/
theorem landIndex_walk (hlen : pits.length = 14) (hi : 0 ≤ i ∧ i < 14) (hj : 0 ≤ j ∧ j < 14)
    (hij : i ≠ j) (n : ℕ) :
    (walk j (n + 1) i).getLast? = some (landIndex pits i j (n + 1 : ℕ)) := by
  rw [getLast?_walk, landIndex_eq hlen hi hj hij]

/-! ## A move -/

variable {b : MancalaBoard}

/-- What `move` uses of an allowed move : it starts on the board, at a pit that is not the
opponent's store and has a stone. -/
theorem isAllowedMove_spec (h : isAllowedMove b i = true) :
    (0 ≤ i ∧ i < 14) ∧
    (0 ≤ indexForPlayerStore (nextPlayer b.player) ∧
      indexForPlayerStore (nextPlayer b.player) < 14) ∧
    i ≠ indexForPlayerStore (nextPlayer b.player) ∧
    ∃ n : ℕ, index b.pits i = (n + 1 : ℕ) := by
  obtain ⟨hside, hpos⟩ := isAllowedMove_iff.1 h
  have hp := positions b.player
  exact ⟨by omega, by omega, by omega, (index b.pits i).toNat - 1, by omega⟩

/-- The board on which an allowed move sows. -/
theorem length_replace_zero (hlen : b.pits.length = 14) (h : isAllowedMove b i = true) :
    (replace b.pits i 0).length = 14 := by
  obtain ⟨hi, -⟩ := isAllowedMove_spec h
  rw [replace_eq_set (by omega), List.length_set, hlen]

/-- An allowed move sows the stones of its pit along the walk without the opponent's store,
and the next turn is the same player's if `landIndex` is his store. -/
theorem move_eq (hlen : b.pits.length = 14) (h : isAllowedMove b i = true) (hn : index b.pits i =
    (n + 1 : ℕ)) :
    move b i = some ⟨addStones (replace b.pits i 0)
        (walk (indexForPlayerStore (nextPlayer b.player)) (n + 1) i),
      if landIndex b.pits i (indexForPlayerStore (nextPlayer b.player)) (n + 1 : ℕ) =
        indexForPlayerStore b.player then b.player else nextPlayer b.player⟩ := by
  have hplace := placeStones_eq (i := i) (j := indexForPlayerStore (nextPlayer b.player))
    (n := n) (length_replace_zero hlen h) (le_refl _)
  simp only [move, h, Bool.not_true, Bool.false_eq_true, if_false, getBoardData, getCurPlayer, hn,
    Int.toNat_natCast, hplace, Option.map_some]

/-- For 14 pits, `landIndex` is where `placeStones` puts the last of its stones ; so a player
keeps the turn exactly when the last stone falls into his store. -/
theorem landIndex_last_stone :
    (∀ (pits : List ℤ) (i j n : ℤ) (fuel : ℕ), pits.length = 14 → 0 ≤ i ∧ i < 14 →
      0 ≤ j ∧ j < 14 → i ≠ j → 1 ≤ n → 2 * n.toNat ≤ fuel →
      ∃ after log, placeStonesLog fuel pits i j n = some (after, log) ∧
        placeStones fuel pits i j n = some after ∧ after = addStones pits log ∧
        log.length = n ∧ log.getLast? = some (landIndex pits i j n)) ∧
    ∀ (b : MancalaBoard) (i : ℤ), b.pits.length = 14 → isAllowedMove b i = true →
      ∃ b' log, move b i = some b' ∧
        placeStonesLog (2 * (index b.pits i).toNat) (replace b.pits i 0) i
          (indexForPlayerStore (nextPlayer b.player)) (index b.pits i) = some (b'.pits, log) ∧
        (b'.player = b.player ↔ log.getLast? = some (indexForPlayerStore b.player)) := by
  refine ⟨fun pits i j n fuel hlen hi hj hij hn hfuel => ?_, fun b i hlen h => ?_⟩
  · obtain ⟨m, rfl⟩ : ∃ m : ℕ, n = (m + 1 : ℕ) := ⟨n.toNat - 1, by omega⟩
    exact ⟨_, _, placeStonesLog_eq hlen (by omega), placeStones_eq hlen (by omega), rfl,
      by rw [length_walk], landIndex_walk hlen hi hj hij m⟩
  · obtain ⟨hi, hj, hij, n, hn⟩ := isAllowedMove_spec h
    have hlog := placeStonesLog_eq (i := i) (j := indexForPlayerStore (nextPlayer b.player))
      (n := n) (length_replace_zero hlen h) (le_refl _)
    refine ⟨_, _, move_eq hlen h hn, by rw [hn]; exact hlog, ?_⟩
    rw [landIndex_walk hlen hi hj hij, Option.some.injEq]
    split_ifs with hland
    · exact iff_of_true rfl hland
    · exact iff_of_false (nextPlayer_ne _) hland

/-- A sowing of a whole lap. -/
theorem landIndex_last_stone_lap : ∃ b' log,
    move ⟨[0, 0, 0, 0, 0, 14, 1, 0, 0, 0, 0, 0, 0, 2], .playerA⟩ 5 = some b' ∧
      placeStonesLog 28 [0, 0, 0, 0, 0, 0, 1, 0, 0, 0, 0, 0, 0, 2] 5 13 14 = some (b'.pits, log) ∧
      (b'.player = .playerA ↔ log.getLast? = some 6) :=
  landIndex_last_stone.2 ⟨[0, 0, 0, 0, 0, 14, 1, 0, 0, 0, 0, 0, 0, 2], .playerA⟩ 5 rfl (by decide)

end Mancala

end ClassProjects
