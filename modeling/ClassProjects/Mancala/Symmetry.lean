import ClassProjects.Mancala.Distribution
import Mathlib.Data.List.Rotate

/-!
# The players change sides

`rot` turns a board by 7 positions, so that the players change sides, and gives the turn to
the other one. The positions of a player become those of the other (`indicesForPlayerSide_next`),
the walk without a store becomes the walk without the other (`walk_turn`), and so a move on
the turned board is the turned move (`move_rot`).
-/

namespace ClassProjects

namespace Mancala

variable {b : MancalaBoard} {p : Player} {pits pits' ks : List ℤ} {i j k : ℤ} {n : ℕ}

/-- The position that a position is turned to. -/
def turn (i : ℤ) : ℤ :=
  (i + 7) % 14

/-- Turn the board, and swap the current player. -/
def rot (b : MancalaBoard) : MancalaBoard :=
  ⟨b.pits.rotate 7, nextPlayer b.player⟩

/-! ## Positions -/

theorem turn_mem (i : ℤ) : 0 ≤ turn i ∧ turn i < 14 := by
  unfold turn
  omega

theorem turn_turn (hi : 0 ≤ i ∧ i < 14) : turn (turn i) = i := by
  unfold turn
  omega

theorem turn_inj (hi : 0 ≤ i ∧ i < 14) (hk : 0 ≤ k ∧ k < 14) : turn i = turn k ↔ i = k := by
  unfold turn
  omega

@[simp] theorem nextPlayer_nextPlayer (p : Player) : nextPlayer (nextPlayer p) = p := by
  cases p <;> decide

theorem indexForPlayerStore_next (p : Player) :
    indexForPlayerStore (nextPlayer p) = turn (indexForPlayerStore p) := by
  cases p <;> decide

theorem indicesForPlayerSide_next (p : Player) :
    indicesForPlayerSide (nextPlayer p) = (indicesForPlayerSide p).map turn := by
  cases p <;> decide

/-! ## Pits -/

/-- Boards with the same number in every pit. -/
theorem pits_ext (hlen : pits.length = 14) (hlen' : pits'.length = 14)
    (h : ∀ k, 0 ≤ k ∧ k < 14 → index pits k = index pits' k) : pits = pits' := by
  refine List.ext_getElem (hlen.trans hlen'.symm) fun m hm hm' => ?_
  have hk := h m (by omega)
  rwa [index, index, Int.toNat_natCast, List.getD_eq_getElem _ _ hm,
    List.getD_eq_getElem _ _ hm'] at hk

/-- A pit is turned with its stones. -/
theorem index_rotate (hlen : pits.length = 14) (hk : 0 ≤ k ∧ k < 14) :
    index (pits.rotate 7) (turn k) = index pits k := by
  have hlt : (turn k).toNat < (pits.rotate 7).length := by
    have hmem := turn_mem k
    rw [List.length_rotate, hlen]
    omega
  have hpos : ((turn k).toNat + 7) % pits.length = k.toNat := by
    rw [hlen, turn]
    omega
  rw [index, index, List.getD_eq_getElem _ _ hlt, List.getElem_rotate,
    List.getD_eq_getElem _ _ (by omega)]
  simp only [hpos]

theorem replace_turn (hlen : pits.length = 14) (hi : 0 ≤ i ∧ i < 14) (x : ℤ) :
    replace (pits.rotate 7) (turn i) x = (replace pits i x).rotate 7 := by
  have hlen' : (replace pits i x).length = 14 := by
    rw [replace_eq_set (by omega), List.length_set, hlen]
  have hturn := turn_mem i
  refine pits_ext ?_ (by rw [List.length_rotate, hlen']) fun k hk => ?_
  · rw [replace_eq_set (by rw [List.length_rotate]; omega), List.length_set, List.length_rotate,
      hlen]
  · obtain ⟨k, hk', rfl⟩ : ∃ k', (0 ≤ k' ∧ k' < 14) ∧ k = turn k' :=
      ⟨turn k, turn_mem k, (turn_turn hk).symm⟩
    rw [index_replace (by rw [List.length_rotate]; omega) hk.1, index_rotate hlen' hk',
      index_rotate hlen hk', index_replace (by omega) hk'.1]
    simp only [turn_inj hk' hi]

theorem addStones_turn (hlen : pits.length = 14) (hks : ∀ k ∈ ks, 0 ≤ k ∧ k < 14) :
    addStones (pits.rotate 7) (ks.map turn) = (addStones pits ks).rotate 7 := by
  induction ks generalizing pits with
  | nil => rfl
  | cons k ks ih =>
    have hk := hks k List.mem_cons_self
    have hstone : addStone (pits.rotate 7) (turn k) = (addStone pits k).rotate 7 := by
      rw [addStone, index_rotate hlen hk, replace_turn hlen hk, addStone]
    have hrest := ih (length_addStone hlen hk) fun x hx => hks x (List.mem_cons_of_mem k hx)
    rw [addStones, List.map_cons, List.foldl_cons, hstone]
    exact hrest

/-! ## The walk -/

theorem advance_turn (hj : 0 ≤ j ∧ j < 14) (i : ℤ) :
    advance (turn j) (turn i) = turn (advance j i) := by
  simp only [advance, turn]
  split_ifs <;> omega

theorem walk_turn (hj : 0 ≤ j ∧ j < 14) (n : ℕ) (i : ℤ) :
    walk (turn j) n (turn i) = (walk j n i).map turn := by
  induction n generalizing i with
  | zero => rfl
  | succ n ih => rw [walk, walk, advance_turn hj, ih, List.map_cons]

theorem landIndex_turn (hlen : pits.length = 14) (hj : 0 ≤ j ∧ j < 14)
    (hi : 0 ≤ i ∧ i < 14) (hij : i ≠ j) (n : ℕ) :
    landIndex (pits.rotate 7) (turn i) (turn j) n = turn (landIndex pits i j n) := by
  have hlen' : (pits.rotate 7).length = 14 := by rw [List.length_rotate, hlen]
  have hne : turn i ≠ turn j := fun h => hij ((turn_inj hi hj).1 h)
  rw [landIndex_eq hlen' (turn_mem i) (turn_mem j) hne, landIndex_eq hlen hi hj hij]
  exact ((Function.Semiconj.iterate_right
    (fun i => (advance_turn hj i).symm : Function.Semiconj turn (advance j) (advance (turn j))) n)
    i).symm

theorem landIndex_mem (hlen : pits.length = 14) (n : ℤ) :
    0 ≤ landIndex pits i j n ∧ landIndex pits i j n < 14 := by
  simp only [landIndex, hlen]
  split_ifs <;> omega

/-! ## What a player has and may do -/

theorem positions_mem (p : Player) :
    (0 ≤ indexForPlayerStore p ∧ indexForPlayerStore p < 14) ∧
      ∀ i ∈ indicesForPlayerSide p, 0 ≤ i ∧ i < 14 := by
  cases p <;> decide

theorem numCaptured_rot (hlen : b.pits.length = 14) (p : Player) :
    numCaptured (rot b) (nextPlayer p) = numCaptured b p := by
  rw [numCaptured, indexForPlayerStore_next]
  exact index_rotate hlen (positions_mem p).1

theorem playerSide_rot (hlen : b.pits.length = 14) (p : Player) :
    playerSide (rot b) (nextPlayer p) = playerSide b p := by
  rw [playerSide, playerSide, indicesForPlayerSide_next, indexForPlayerStore_next,
    ← List.map_singleton, ← List.map_append, List.map_map]
  refine List.map_congr_left fun i hi => index_rotate hlen ?_
  rcases List.mem_append.1 hi with hi | hi
  · exact (positions_mem p).2 i hi
  · rw [List.mem_singleton.1 hi]
    exact (positions_mem p).1

theorem allowedMoves_rot (hlen : b.pits.length = 14) (p : Player) :
    allowedMoves (rot b) (nextPlayer p) = (allowedMoves b p).map turn := by
  rw [allowedMoves, allowedMoves, indicesForPlayerSide_next, List.filter_map]
  refine congrArg (List.map turn) (List.filter_congr fun i hi => ?_)
  rw [Function.comp_apply, getBoardData, rot, index_rotate hlen ((positions_mem p).2 i hi)]
  rfl

theorem mem_map_turn (hks : ∀ k ∈ ks, 0 ≤ k ∧ k < 14) (hi : 0 ≤ i ∧ i < 14) :
    turn i ∈ ks.map turn ↔ i ∈ ks := by
  rw [List.mem_map]
  constructor
  · rintro ⟨k, hk, hki⟩
    rwa [← (turn_inj (hks k hk) hi).1 hki]
  · exact fun h => ⟨i, h, rfl⟩

theorem isAllowedMove_rot (hlen : b.pits.length = 14) (hi : 0 ≤ i ∧ i < 14) :
    isAllowedMove (rot b) (turn i) = isAllowedMove b i := by
  have hmem : ∀ k ∈ allowedMoves b b.player, 0 ≤ k ∧ k < 14 := fun k hk =>
    (positions_mem b.player).2 k (List.mem_filter.1 hk).1
  rw [Bool.eq_iff_iff, isAllowedMove, isAllowedMove, List.contains_iff_mem,
    List.contains_iff_mem, getCurPlayer, getCurPlayer, ← mem_map_turn hmem hi,
    ← allowedMoves_rot hlen]
  rfl

/-- A move on the turned board is the turned move. -/
theorem move_rot (hlen : b.pits.length = 14) (hi : 0 ≤ i ∧ i < 14) :
    ∃ b', move b i = some b' ∧ move (rot b) (turn i) = some (rot b') := by
  have hrot := isAllowedMove_rot hlen hi
  by_cases h : isAllowedMove b i = true
  · obtain ⟨-, hj, hij, n, hn⟩ := isAllowedMove_spec h
    have hlen' : (rot b).pits.length = 14 := (List.length_rotate ..).trans hlen
    have hn' : index (rot b).pits (turn i) = (n + 1 : ℕ) := (index_rotate hlen hi).trans hn
    set j := indexForPlayerStore (nextPlayer b.player) with hjdef
    have hstore : indexForPlayerStore (nextPlayer (rot b).player) = turn j :=
      indexForPlayerStore_next _
    have hsown : addStones (replace (rot b).pits (turn i) 0) (walk (turn j) (n + 1) (turn i)) =
        (addStones (replace b.pits i 0) (walk j (n + 1) i)).rotate 7 := by
      rw [walk_turn hj, rot, replace_turn hlen hi]
      exact addStones_turn (length_replace_zero hlen h) fun k hk => walk_mem hk
    have hland : landIndex (rot b).pits (turn i) (turn j) (n + 1 : ℕ) =
        indexForPlayerStore (rot b).player ↔
          landIndex b.pits i j (n + 1 : ℕ) = indexForPlayerStore b.player := by
      rw [rot, landIndex_turn hlen hj hi hij, indexForPlayerStore_next]
      exact turn_inj (landIndex_mem hlen _) (positions_mem b.player).1
    refine ⟨_, move_eq hlen h hn, ?_⟩
    rw [move_eq hlen' (hrot.trans h) hn', hstore, hsown]
    simp only [hland]
    split_ifs <;> rfl
  · refine ⟨b, ?_, ?_⟩
    · simp [move, h]
    · simp [move, hrot, h]

/-! ## Both players are treated alike -/

theorem gameOver_rot (hlen : b.pits.length = 14) : gameOver (rot b) = gameOver b := by
  have hA : playerSide (rot b) .playerB = playerSide b .playerA := playerSide_rot hlen .playerA
  have hB : playerSide (rot b) .playerA = playerSide b .playerB := playerSide_rot hlen .playerB
  simp only [gameOver, allPlayers, List.map_cons, List.map_nil, List.any_cons, List.any_nil, hA,
    hB, Bool.or_false]
  exact Bool.or_comm ..

theorem winners_rot (hlen : b.pits.length = 14) :
    winners (rot b) = (winners b).map nextPlayer := by
  have hA : playerSide (rot b) .playerB = playerSide b .playerA := playerSide_rot hlen .playerA
  have hB : playerSide (rot b) .playerA = playerSide b .playerB := playerSide_rot hlen .playerB
  simp only [winners, allPlayers, List.map_cons, List.map_nil, hA, hB]
  generalize sum (playerSide b .playerA) = x
  generalize sum (playerSide b .playerB) = y
  have hx : index [x, y] 0 = x ∧ index [x, y] 1 = y := ⟨rfl, rfl⟩
  have hy : index [y, x] 0 = y ∧ index [y, x] 1 = x := ⟨rfl, rfl⟩
  rw [hx.1, hx.2, hy.1, hy.2]
  split_ifs <;> first | rfl | omega

/-- The rules treat both players alike : turning a board commutes with a move, with the
allowed moves and with the captured stones ; it keeps whether the game is over, and swaps the
winners. -/
theorem rules_rot (hlen : b.pits.length = 14) :
    (∀ i, 0 ≤ i ∧ i < 14 → ∃ b', move b i = some b' ∧
      move (rot b) ((i + 7) % 14) = some (rot b')) ∧
    (∀ p, allowedMoves (rot b) (nextPlayer p) =
      (allowedMoves b p).map fun i => (i + 7) % 14) ∧
    (∀ p, numCaptured (rot b) (nextPlayer p) = numCaptured b p) ∧
    gameOver (rot b) = gameOver b ∧ winners (rot b) = (winners b).map nextPlayer :=
  ⟨fun _ hi => move_rot hlen hi, allowedMoves_rot hlen, numCaptured_rot hlen, gameOver_rot hlen,
    winners_rot hlen⟩

/-- The board of the source's test cases. -/
theorem rules_rot_board :
    let b : MancalaBoard := ⟨[0, 0, 0, 0, 0, 14, 1, 0, 0, 0, 0, 0, 0, 2], .playerA⟩
    (∀ i, 0 ≤ i ∧ i < 14 → ∃ b', move b i = some b' ∧
      move ⟨[0, 0, 0, 0, 0, 0, 2, 0, 0, 0, 0, 0, 14, 1], .playerB⟩ ((i + 7) % 14) =
        some (rot b')) ∧
    (∀ p, allowedMoves (rot b) (nextPlayer p) =
      (allowedMoves b p).map fun i => (i + 7) % 14) ∧
    (∀ p, numCaptured (rot b) (nextPlayer p) = numCaptured b p) ∧
    gameOver (rot b) = gameOver b ∧ winners (rot b) = (winners b).map nextPlayer :=
  rules_rot (b := ⟨[0, 0, 0, 0, 0, 14, 1, 0, 0, 0, 0, 0, 0, 2], .playerA⟩) rfl

end Mancala

end ClassProjects
