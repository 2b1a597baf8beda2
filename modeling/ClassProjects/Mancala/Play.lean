import ClassProjects.Mancala.Termination

/-!
# The game loop

`gameLoop` of `playMancala.hs` on the integers that are typed, less the text it prints. It
reads until the game is over. A typed integer is read as an `Int`, so the pit it selects is
that of `toInt` of it.

From the initial board no count overflows : the stones stay 48 (`Fair`), and a move changes
every potential by exactly what it takes and brings (`weigh_move`). The invariants of a game
are read off three of them, the constant one and the two stores.
-/

namespace ClassProjects

namespace Mancala

open Potential

/-! ## The loop -/

/-- The position that a typed integer selects. -/
def selected (p : Player) (i : ℤ) : ℤ :=
  if playerNum p = 0 then toInt (toInt i - 1) else toInt (toInt i + 6)

/-- `gameLoop` : the board when the integers are read, or when the game is over. -/
def gameLoop : MancalaBoard → List ℤ → Option MancalaBoard
  | board, [] => some board
  | board, i :: typed =>
    if gameOver board then some board
    else
      let n := selected (getCurPlayer board) i
      (move board n).bind fun board' => gameLoop board' typed

variable {b b' : MancalaBoard} {p : Player} {pits ks xs : List ℤ} {i k s : ℤ} {n : ℕ}

theorem gameLoop_append (b : MancalaBoard) (typed later : List ℤ) :
    gameLoop b (typed ++ later) = (gameLoop b typed).bind fun b' => gameLoop b' later := by
  induction typed generalizing b with
  | nil => rfl
  | cons i typed ih =>
    rw [List.cons_append, gameLoop, gameLoop]
    split_ifs with hover
    · cases later with
      | nil => rfl
      | cons k later => rw [Option.bind_some, gameLoop, if_pos hover]
    · simp only [ih, Option.bind_assoc]

/-! ## Counts that do not overflow -/

/-- A board with 48 stones. -/
structure Fair (b : MancalaBoard) : Prop where
  length : b.pits.length = 14
  nonneg : ∀ x ∈ b.pits, 0 ≤ x
  stones : total b.pits = 48

theorem Fair.isBoard (h : Fair b) : IsBoard b where
  length := h.length
  isInt x hx := by
    have hle := le_total h.nonneg hx
    rw [h.stones] at hle
    have hx0 := h.nonneg x hx
    exact ⟨by omega, by omega⟩

/-- While the stones are less than an `Int` can count, every stone brings the weight of its
position. -/
theorem weigh_addStones (w : ℕ → ℤ) (hlen : pits.length = 14) (hnn : ∀ x ∈ pits, 0 ≤ x)
    (hks : ∀ k ∈ ks, 0 ≤ k ∧ k < 14) (htotal : total pits + ks.length < 2 ^ 63) :
    (∀ x ∈ addStones pits ks, 0 ≤ x) ∧
      weigh w (addStones pits ks) = weigh w pits + total (ks.map fun k => w k.toNat) := by
  induction ks generalizing pits with
  | nil => exact ⟨hnn, by simp [addStones, total]⟩
  | cons k ks ih =>
    have hk := hks k List.mem_cons_self
    have hk' : 0 ≤ k ∧ k < pits.length := by omega
    have hpit := hnn _ (index_mem hk')
    have hle := le_total hnn (index_mem hk')
    rw [List.length_cons] at htotal
    have hinc : toInt (index pits k + 1) = index pits k + 1 :=
      toInt_eq ⟨by omega, by omega⟩
    have hone : ∀ w : ℕ → ℤ, weigh w (addStone pits k) = weigh w pits + w k.toNat := by
      intro w
      rw [addStone, hinc, weigh_replace hk']
      ring
    have hnn' : ∀ x ∈ addStone pits k, 0 ≤ x := by
      rw [addStone, hinc, replace_eq_set hk']
      intro x hx
      rcases List.mem_or_eq_of_mem_set hx with hx | rfl
      · exact hnn x hx
      · omega
    have htotal' : total (addStone pits k) + ks.length < 2 ^ 63 := by
      rw [← weigh_one, hone, weigh_one]
      push_cast at htotal
      omega
    obtain ⟨hrest, hweigh⟩ := ih (length_addStone hlen hk) hnn'
      (fun k' hk' => hks k' (List.mem_cons_of_mem _ hk')) htotal'
    refine ⟨hrest, ?_⟩
    rw [List.map_cons, total, ← add_assoc, ← hone, ← hweigh]
    rfl

/-- An allowed move keeps the stones 48, and changes a potential by the weights of the walk
less those of the pit that is emptied. -/
theorem weigh_move (h : Fair b) (hi : isAllowedMove b i = true) :
    ∃ (b' : MancalaBoard) (ks : List ℤ), move b i = some b' ∧ Fair b' ∧
      ∀ w : ℕ → ℤ, weigh w b'.pits =
        weigh w b.pits - w i.toNat * index b.pits i + total (ks.map fun k => w k.toNat) := by
  obtain ⟨hpos, -, -, n, hn⟩ := isAllowedMove_spec hi
  have hpos' : 0 ≤ i ∧ i < b.pits.length := by
    rw [h.length]
    exact hpos
  have hlen := length_replace_zero h.length hi
  have hmove := move_eq h.length hi hn
  set ks := walk (indexForPlayerStore (nextPlayer b.player)) (n + 1) i with hks
  have hklen : (ks.length : ℤ) = index b.pits i := by rw [hks, length_walk, hn]
  have hmem : ∀ k ∈ ks, 0 ≤ k ∧ k < 14 := fun k hk => walk_mem hk
  have hnn : ∀ x ∈ replace b.pits i 0, 0 ≤ x := by
    rw [replace_eq_set hpos']
    intro x hx
    rcases List.mem_or_eq_of_mem_set hx with hx | rfl
    · exact h.nonneg x hx
    · exact le_refl 0
  have htotal : total (replace b.pits i 0) = 48 - index b.pits i := by
    rw [← weigh_one, weigh_replace hpos', weigh_one, h.stones]
    ring
  have hsow := fun w => weigh_addStones w hlen hnn hmem (by rw [htotal, hklen]; omega)
  have hweigh : ∀ w, weigh w (addStones (replace b.pits i 0) ks) =
      weigh w b.pits - w i.toNat * index b.pits i + total (ks.map fun k => w k.toNat) := by
    intro w
    rw [(hsow w).2, weigh_replace hpos']
    ring
  have hlen' : (addStones (replace b.pits i 0) ks).length = 14 := by
    obtain ⟨b'', hb'', hboard, -⟩ := move_decreases h.isBoard hi
    obtain rfl := Option.some.inj (hmove.symm.trans hb'')
    exact hboard.length
  refine ⟨_, ks, hmove, ⟨hlen', (hsow fun _ => 1).1, ?_⟩, hweigh⟩
  rw [← weigh_one, hweigh, weigh_one, h.stones, total_map_one, hklen]
  ring

theorem index_eq_weigh (pits : List ℤ) (k : ℤ) :
    index pits k = weigh (fun m => if m = k.toNat then 1 else 0) pits := by
  rw [weigh_single, index]

/-- A move takes nothing out of a store. -/
theorem numCaptured_move (h : Fair b) (hi : isAllowedMove b i = true) (hb' : move b i = some b')
    (p : Player) : Fair b' ∧ numCaptured b p ≤ numCaptured b' p := by
  obtain ⟨b'', ks, hb'', hfair, hweigh⟩ := weigh_move h hi
  obtain rfl := Option.some.inj (hb'.symm.trans hb'')
  refine ⟨hfair, ?_⟩
  obtain ⟨hside, -⟩ := isAllowedMove_iff.1 hi
  have hp := positions p
  have hp' := positions b.player
  have hne : i.toNat ≠ (indexForPlayerStore p).toNat := by omega
  have hnn : 0 ≤ total (ks.map fun k =>
      if k.toNat = (indexForPlayerStore p).toNat then (1 : ℤ) else 0) := by
    refine total_nonneg fun x hx => ?_
    obtain ⟨k, -, rfl⟩ := List.mem_map.1 hx
    split_ifs <;> omega
  rw [numCaptured, numCaptured, getBoardData, getBoardData, index_eq_weigh, index_eq_weigh, hweigh,
    if_neg hne, zero_mul, sub_zero]
  omega

/-! ## Sums of pits -/

theorem foldl_sum (hs : 0 ≤ s) (hnn : ∀ x ∈ xs, 0 ≤ x) (hlt : s + total xs < 2 ^ 63) :
    xs.foldl (fun s x => toInt (s + x)) s = s + total xs := by
  induction xs generalizing s with
  | nil => rw [List.foldl_nil, total, add_zero]
  | cons x xs ih =>
    have hx := hnn x List.mem_cons_self
    have hnn' : ∀ y ∈ xs, 0 ≤ y := fun y hy => hnn y (List.mem_cons_of_mem _ hy)
    have hrest := total_nonneg hnn'
    rw [total] at hlt ⊢
    have hsx : toInt (s + x) = s + x := toInt_eq ⟨by omega, by omega⟩
    rw [List.foldl_cons, hsx, ih (by omega) hnn' (by omega), add_assoc]

theorem sum_eq (hnn : ∀ x ∈ xs, 0 ≤ x) (hlt : total xs < 2 ^ 63) : sum xs = total xs := by
  rw [sum, foldl_sum (le_refl 0) hnn (by omega), zero_add]

/-- The sides are the halves of the list. -/
theorem playerSide_eq (hlen : b.pits.length = 14) :
    playerSide b .playerA = b.pits.take 7 ∧ playerSide b .playerB = b.pits.drop 7 := by
  obtain ⟨pits, player⟩ := b
  match pits, hlen with
  | [_, _, _, _, _, _, _, _, _, _, _, _, _, _], _ => exact ⟨rfl, rfl⟩

theorem total_sides (hlen : b.pits.length = 14) :
    total (playerSide b .playerA) + total (playerSide b .playerB) = total b.pits := by
  rw [(playerSide_eq hlen).1, (playerSide_eq hlen).2, ← total_append, List.take_append_drop]

theorem mem_pits_of_mem_playerSide (hlen : b.pits.length = 14) {x : ℤ}
    (hx : x ∈ playerSide b p) : x ∈ b.pits := by
  cases p with
  | playerA =>
    rw [(playerSide_eq hlen).1] at hx
    exact List.mem_of_mem_take hx
  | playerB =>
    rw [(playerSide_eq hlen).2] at hx
    exact List.mem_of_mem_drop hx

theorem Fair.sum_playerSide (h : Fair b) (p : Player) :
    sum (playerSide b p) = total (playerSide b p) ∧ 0 ≤ total (playerSide b p) := by
  have hnn : ∀ p, ∀ x ∈ playerSide b p, 0 ≤ x := fun p x hx =>
    h.nonneg x (mem_pits_of_mem_playerSide h.length hx)
  have hsides := total_sides h.length
  have hA := total_nonneg (hnn .playerA)
  have hB := total_nonneg (hnn .playerB)
  rw [h.stones] at hsides
  refine ⟨sum_eq (hnn p) ?_, total_nonneg (hnn p)⟩
  cases p <;> omega

/-- The pits of a side without the store. -/
theorem take_playerSide (b : MancalaBoard) (p : Player) :
    (playerSide b p).take boardSize.toNat = (indicesForPlayerSide p).map (index b.pits) := by
  have hlen : boardSize.toNat = ((indicesForPlayerSide p).map (index b.pits)).length := by
    cases p <;> rfl
  rw [hlen, playerSide, List.map_append, getBoardData, List.take_left']
  rfl

/-! ## The end of the game -/

/-- While the game is not over, both players have a stone to move. -/
theorem allowedMoves_ne_nil (h : Fair b) (hover : gameOver b = false) (p : Player) :
    allowedMoves b p ≠ [] := by
  have hnn : ∀ x ∈ (indicesForPlayerSide p).map (index b.pits), 0 ≤ x := by
    rw [← take_playerSide]
    exact fun x hx => h.nonneg x (mem_pits_of_mem_playerSide h.length (List.mem_of_mem_take hx))
  have hne : total ((indicesForPlayerSide p).map (index b.pits)) ≠ 0 := by
    intro hzero
    have hsum := sum_eq hnn (by rw [hzero]; decide)
    have hany : gameOver b = true := by
      rw [gameOver, List.any_eq_true]
      refine ⟨0, List.mem_map.2 ⟨p, by cases p <;> decide, ?_⟩, rfl⟩
      rw [take_playerSide, hsum, hzero]
    rw [hover] at hany
    cases hany
  obtain ⟨x, hx, hx0⟩ := exists_ne_zero hne
  obtain ⟨i, hi, rfl⟩ := List.mem_map.1 hx
  refine List.ne_nil_of_mem (a := i) (List.mem_filter.2 ⟨hi, decide_eq_true ?_⟩)
  exact lt_of_le_of_ne (hnn _ hx) hx0.symm

theorem index_cons_zero (x : ℤ) (xs : List ℤ) : index (x :: xs) 0 = x :=
  rfl

theorem index_cons_one (x y : ℤ) (xs : List ℤ) : index (x :: y :: xs) 1 = y :=
  rfl

/-- A player with more than half of the stones in his store has won. -/
theorem winners_eq (h : Fair b) (hstore : 24 < numCaptured b p) : winners b = [p] := by
  have hmem : numCaptured b p ∈ playerSide b p := by
    rw [playerSide, List.mem_map]
    exact ⟨indexForPlayerStore p, by simp, rfl⟩
  have hle := le_total (fun x hx => h.nonneg x (mem_pits_of_mem_playerSide h.length hx)) hmem
  have hsides := total_sides h.length
  obtain ⟨hA, hA0⟩ := h.sum_playerSide .playerA
  obtain ⟨hB, hB0⟩ := h.sum_playerSide .playerB
  rw [h.stones] at hsides
  simp only [winners, allPlayers, List.map_cons, List.map_nil, index_cons_zero, index_cons_one, hA,
    hB]
  cases p with
  | playerA => rw [if_pos (by omega)]
  | playerB => rw [if_neg (by omega), if_pos (by omega)]

/-! ## Turns -/

/-- The selected position is on the player's side for the numbers from 1 to 6. -/
theorem selected_spec (p : Player) (k : ℤ) :
    (indexForFirstPit p ≤ selected p k ∧ selected p k < indexForPlayerStore p ↔
      1 ≤ toInt k ∧ toInt k ≤ 6) ∧
    (1 ≤ toInt k ∧ toInt k ≤ 6 → selected p k = indexForFirstPit p + toInt k - 1) := by
  obtain ⟨hge, hlt⟩ := isInt_toInt k
  cases p with
  | playerA =>
    have hfirst : indexForFirstPit .playerA = 0 := by decide
    have hstore : indexForPlayerStore .playerA = 6 := by decide
    have hsel : selected .playerA k = toInt (toInt k - 1) := if_pos rfl
    rw [hfirst, hstore, hsel]
    rcases toInt_cases (toInt k - 1) with hcase | hcase <;> omega
  | playerB =>
    have hfirst : indexForFirstPit .playerB = 7 := by decide
    have hstore : indexForPlayerStore .playerB = 13 := by decide
    have hsel : selected .playerB k = toInt (toInt k + 6) := if_neg (by decide)
    rw [hfirst, hstore, hsel]
    rcases toInt_cases (toInt k + 6) with hcase | hcase <;> omega

/-- A typed integer selects an allowed move if it is read as a number from 1 to 6 of a pit
that is not empty. -/
theorem isAllowedMove_selected (h : Fair b) (k : ℤ) :
    isAllowedMove b (selected (getCurPlayer b) k) = true ↔ (1 ≤ toInt k ∧ toInt k ≤ 6) ∧
      index b.pits (indexForFirstPit b.player + toInt k - 1) ≠ 0 := by
  rw [isAllowedMove_iff, getCurPlayer]
  obtain ⟨hsel, hpos⟩ := selected_spec b.player k
  rw [hsel]
  refine and_congr_right fun h16 => ?_
  rw [hpos h16]
  have hmem : 0 ≤ index b.pits (indexForFirstPit b.player + toInt k - 1) := by
    have hp := positions b.player
    exact h.nonneg _ (index_mem (by rw [h.length]; omega))
  omega

/-- One turn : it succeeds, keeps the stones and the stores, and changes the board if and
only if the typed integer selects an allowed move. -/
theorem turn_spec (h : Fair b) (k : ℤ) :
    ∃ b', move b (selected (getCurPlayer b) k) = some b' ∧ Fair b' ∧
      (∀ p, numCaptured b p ≤ numCaptured b' p) ∧
      (b' ≠ b ↔ isAllowedMove b (selected (getCurPlayer b) k) = true) := by
  cases hi : isAllowedMove b (selected (getCurPlayer b) k) with
  | false =>
    refine ⟨b, ?_, h, fun p => le_refl _, ?_⟩
    · rw [move, hi]
      rfl
    · simp
  | true =>
    obtain ⟨b', hb', -, hdec⟩ := move_decreases h.isBoard hi
    refine ⟨b', hb', (numCaptured_move h hi hb' .playerA).1,
      fun p => (numCaptured_move h hi hb' p).2, iff_of_true ?_ rfl⟩
    rintro rfl
    rcases hdec with hlt | ⟨-, hlt⟩ <;> exact lt_irrefl _ hlt

/-- Whatever is typed, the stones stay 48 and no store loses any. -/
theorem gameLoop_fair (h : Fair b) (typed : List ℤ) :
    ∃ b', gameLoop b typed = some b' ∧ Fair b' ∧ ∀ p, numCaptured b p ≤ numCaptured b' p := by
  induction typed generalizing b with
  | nil => exact ⟨b, rfl, h, fun p => le_refl _⟩
  | cons k typed ih =>
    rw [gameLoop]
    split_ifs
    · exact ⟨b, rfl, h, fun p => le_refl _⟩
    · obtain ⟨b₁, hmove, h₁, hle₁, -⟩ := turn_spec h k
      obtain ⟨b₂, hrest, h₂, hle₂⟩ := ih h₁
      exact ⟨b₂, by simp only [hmove, Option.bind_some, hrest], h₂,
        fun p => (hle₁ p).trans (hle₂ p)⟩

/-- Of every state that a game reaches, whatever is typed : there are 14 pits with 48 stones
in all ; unless the game is over, the player has an allowed move, and a typed integer
changes the state if and only if it is read as the number of a pit that is not empty ; and
in every later state no store has less, and a player who has more than 24 in his store now
is the winner. -/
theorem gameLoop_invariants (typed : List ℤ) :
    ∃ b, gameLoop initial typed = some b ∧
      (b.pits.length = 14 ∧ (∀ x ∈ b.pits, 0 ≤ x) ∧ total b.pits = 48) ∧
      (gameOver b = false → allowedMoves b (getCurPlayer b) ≠ [] ∧
        ∀ k, ∃ b', gameLoop initial (typed ++ [k]) = some b' ∧
          (b' ≠ b ↔ (1 ≤ toInt k ∧ toInt k ≤ 6) ∧
            index b.pits (indexForFirstPit (getCurPlayer b) + toInt k - 1) ≠ 0)) ∧
      ∀ later, ∃ b', gameLoop initial (typed ++ later) = some b' ∧
        ∀ p, numCaptured b p ≤ numCaptured b' p ∧ (24 < numCaptured b p → winners b' = [p]) := by
  have hinitial : Fair initial := ⟨rfl, by decide, by decide⟩
  obtain ⟨b, hb, hfair, -⟩ := gameLoop_fair hinitial typed
  refine ⟨b, hb, ⟨hfair.length, hfair.nonneg, hfair.stones⟩, fun hover => ⟨?_, fun k => ?_⟩,
    fun later => ?_⟩
  · exact allowedMoves_ne_nil hfair hover _
  · obtain ⟨b', hb', -, -, hiff⟩ := turn_spec hfair k
    refine ⟨b', ?_, hiff.trans (isAllowedMove_selected hfair k)⟩
    simp [gameLoop_append, hb, gameLoop, hover, hb']
  · obtain ⟨b', hb', hfair', hle⟩ := gameLoop_fair hfair later
    refine ⟨b', by rw [gameLoop_append, hb, Option.bind_some, hb'], fun p => ⟨hle p, fun hp => ?_⟩⟩
    exact winners_eq hfair' (lt_of_lt_of_le hp (hle p))

/-- A number that is not from 1 to 6, and is read as 1. -/
theorem gameLoop_overflow :
    gameOver initial = false ∧ ¬(1 ≤ (2 ^ 64 + 1 : ℤ) ∧ (2 ^ 64 + 1 : ℤ) ≤ 6) ∧
      gameLoop initial [2 ^ 64 + 1] ≠ some initial := by
  decide +kernel

end Mancala

end ClassProjects
