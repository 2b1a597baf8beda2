import Mathlib.Algebra.Order.Ring.Int
import Mathlib.Data.List.GetD
import Mathlib.Tactic.Common

/-!
# The Mancala board

`MancalaBoard.hs` : the types, the positions of a player's pits, and the functions that
read a board or make a move. An `Int` is an integer between `-2 ^ 63` and `2 ^ 63 - 1` and
its arithmetic wraps around (`toInt`). Positions are small, so theirs does not.

`placeStones` calls itself until the last stone is placed. `none` is a call that the fuel
does not reach ; `move` gives it two calls for each stone, which is enough for every board
of 14 pits. `xs !! i` is an error past the end of the list, and 0 in the model : no position
that a function below computes on such a board is past its end.
-/

namespace ClassProjects

namespace Mancala

/-! ## Int and lists -/

/-- The `Int` that an integer is as the result of an operation, or as the result of `read`. -/
def toInt (x : ℤ) : ℤ :=
  Int.bmod x (2 ^ 64)

/-- What an `Int` can hold. -/
def IsInt (x : ℤ) : Prop :=
  -2 ^ 63 ≤ x ∧ x < 2 ^ 63

instance (x : ℤ) : Decidable (IsInt x) :=
  inferInstanceAs (Decidable (_ ∧ _))

/-- `xs !! i`. -/
def index (xs : List ℤ) (i : ℤ) : ℤ :=
  xs.getD i.toNat 0

/-- `sum`. -/
def sum (xs : List ℤ) : ℤ :=
  xs.foldl (fun s x => toInt (s + x)) 0

/-- `[a .. b]`. -/
def enumFromTo (a b : ℤ) : List ℤ :=
  (List.range (b + 1 - a).toNat).map fun k : ℕ => a + k

/-! ## Players -/

/-- `Player`. -/
inductive Player
  | playerA | playerB
deriving DecidableEq

/-- `allPlayers`. -/
def allPlayers : List Player :=
  [.playerA, .playerB]

/-- `numPlayers`. -/
def numPlayers : ℤ :=
  allPlayers.length

/-- `playerNum`. -/
def playerNum (p : Player) : ℤ :=
  allPlayers.idxOf p

/-- `playerWithNum`. -/
def playerWithNum (i : ℤ) : Player :=
  allPlayers.getD i.toNat .playerA

/-- `nextPlayer`. -/
def nextPlayer (p : Player) : Player :=
  playerWithNum ((playerNum p + 1) % numPlayers)

/-! ## The board -/

/-- `MancalaBoard` : the pits of player A and his store, those of player B and his, and
whose turn it is. -/
structure MancalaBoard where
  pits : List ℤ
  player : Player
deriving DecidableEq

/-- `boardSize`. -/
def boardSize : ℤ :=
  6

/-- `startStones`. -/
def startStones : ℤ :=
  4

/-- `initial`. -/
def initial : MancalaBoard :=
  let boardSide := List.replicate boardSize.toNat startStones ++ [0]
  ⟨(List.replicate numPlayers.toNat boardSide).flatten, .playerA⟩

/-- `indexForFirstPit`. -/
def indexForFirstPit (p : Player) : ℤ :=
  playerNum p * (boardSize + 1)

/-- `indexForPlayerStore`. -/
def indexForPlayerStore (p : Player) : ℤ :=
  boardSize + indexForFirstPit p

/-- `indicesForPlayerSide`. -/
def indicesForPlayerSide (p : Player) : List ℤ :=
  let firstPit := indexForFirstPit p
  let lastPit := firstPit + boardSize - 1
  enumFromTo firstPit lastPit

/-- `getCurPlayer`. -/
def getCurPlayer (b : MancalaBoard) : Player :=
  b.player

/-- `getBoardData`. -/
def getBoardData (b : MancalaBoard) : List ℤ :=
  b.pits

/-- `playerSide`. -/
def playerSide (b : MancalaBoard) (p : Player) : List ℤ :=
  (indicesForPlayerSide p ++ [indexForPlayerStore p]).map (index (getBoardData b))

/-- `numCaptured`. -/
def numCaptured (b : MancalaBoard) (p : Player) : ℤ :=
  index (getBoardData b) (indexForPlayerStore p)

/-! ## Moves -/

/-- `allowedMoves`. -/
def allowedMoves (b : MancalaBoard) (p : Player) : List ℤ :=
  (indicesForPlayerSide p).filter fun i => index (getBoardData b) i > 0

/-- `isAllowedMove`. -/
def isAllowedMove (b : MancalaBoard) (i : ℤ) : Bool :=
  (allowedMoves b (getCurPlayer b)).contains i

/-- `replace`. -/
def replace {α : Type*} : List α → ℤ → α → List α
  | [], _, _ => []
  | xs, i, a => xs.take i.toNat ++ a :: (xs.drop i.toNat).drop 1

/-- `placeStones`. -/
def placeStones : ℕ → List ℤ → ℤ → ℤ → ℤ → Option (List ℤ)
  | 0, _, _, _, _ => none
  | fuel + 1, pits, i, j, n =>
    let next := (i + 1) % pits.length
    if next = j then placeStones fuel pits next j n
    else if n = 1 then some (replace pits next (toInt (index pits next + 1)))
    else placeStones fuel (replace pits next (toInt (index pits next + 1))) next j (n - 1)

/-- `landIndex`. -/
def landIndex (pits : List ℤ) (i j n : ℤ) : ℤ :=
  let l : ℤ := pits.length
  let x := n % (l - 1)
  if x ≥ (j - i) % l then (i + x + 1) % l else (i + x) % l

/-- `move`. -/
def move (b : MancalaBoard) (i : ℤ) : Option MancalaBoard :=
  if !isAllowedMove b i then some b
  else
    let pits := getBoardData b
    let p := getCurPlayer b
    let n := index pits i
    let j := indexForPlayerStore (nextPlayer p)
    let playerNext := if landIndex pits i j n = indexForPlayerStore p then p else nextPlayer p
    (placeStones (2 * n.toNat) (replace pits i 0) i j n).map fun boardAfterMove =>
      ⟨boardAfterMove, playerNext⟩

/-! ## The end of the game -/

/-- `gameOver`. -/
def gameOver (b : MancalaBoard) : Bool :=
  (allPlayers.map fun p => sum ((playerSide b p).take boardSize.toNat)).any (· == 0)

/-- `winners`. -/
def winners (board : MancalaBoard) : List Player :=
  let results := allPlayers.map fun p => sum (playerSide board p)
  let a := index results 0
  let b := index results 1
  if a > b then [.playerA] else if a < b then [.playerB] else []

/-- The test cases of the source. -/
example :
    getBoardData initial = [4, 4, 4, 4, 4, 4, 0, 4, 4, 4, 4, 4, 4, 0] ∧
    playerSide initial .playerB = [4, 4, 4, 4, 4, 4, 0] ∧ numCaptured initial .playerA = 0 ∧
    allowedMoves initial .playerB = [7, 8, 9, 10, 11, 12] ∧ isAllowedMove initial 6 = false ∧
    move ⟨[0, 0, 0, 0, 0, 14, 1, 0, 0, 0, 0, 0, 0, 2], .playerA⟩ 5 =
      some ⟨[1, 1, 1, 1, 1, 1, 3, 1, 1, 1, 1, 1, 1, 2], .playerA⟩ ∧
    gameOver ⟨[0, 0, 0, 0, 0, 14, 1, 0, 0, 0, 0, 0, 0, 2], .playerA⟩ = true ∧
    winners ⟨[0, 0, 0, 0, 0, 14, 1, 0, 0, 0, 0, 0, 0, 2], .playerA⟩ = [.playerA] := by
  decide +kernel

/-! ## Positions and boards -/

variable {b : MancalaBoard} {p : Player} {i x : ℤ}

theorem toInt_cases (x : ℤ) :
    (x % 2 ^ 64 < 2 ^ 63 ∧ toInt x = x % 2 ^ 64) ∨
    (2 ^ 63 ≤ x % 2 ^ 64 ∧ toInt x = x % 2 ^ 64 - 2 ^ 64) := by
  have hhalf : (((2 ^ 64 : ℕ) : ℤ) + 1) / 2 = 2 ^ 63 := by decide
  rw [toInt, Int.bmod_def, hhalf]
  push_cast
  split_ifs with h
  · exact Or.inl ⟨h, rfl⟩
  · exact Or.inr ⟨not_lt.1 h, rfl⟩

theorem toInt_eq (h : IsInt x) : toInt x = x := by
  unfold IsInt at h
  rcases toInt_cases x with hx | hx <;> omega

theorem isInt_toInt (x : ℤ) : IsInt (toInt x) := by
  unfold IsInt
  rcases toInt_cases x with hx | hx <;> omega

/-- An overflow makes a number smaller. -/
theorem toInt_le (h : -2 ^ 63 ≤ x) : toInt x ≤ x := by
  rcases toInt_cases x with hx | hx <;> omega

/-- The positions of player A are 0 to 6, those of player B 7 to 13. -/
theorem positions (p : Player) :
    (indexForFirstPit p = 0 ∧ indexForPlayerStore p = 6 ∧
      indexForPlayerStore (nextPlayer p) = 13) ∨
    (indexForFirstPit p = 7 ∧ indexForPlayerStore p = 13 ∧
      indexForPlayerStore (nextPlayer p) = 6) := by
  cases p
  · exact Or.inl (by decide)
  · exact Or.inr (by decide)

theorem nextPlayer_ne (p : Player) : nextPlayer p ≠ p := by
  cases p <;> decide

theorem mem_enumFromTo {lo hi : ℤ} : i ∈ enumFromTo lo hi ↔ lo ≤ i ∧ i ≤ hi := by
  simp only [enumFromTo, List.mem_map, List.mem_range]
  constructor
  · rintro ⟨k, hk, rfl⟩
    omega
  · intro h
    exact ⟨(i - lo).toNat, by omega, by omega⟩

/-- The allowed moves are the player's own pits with a stone. -/
theorem mem_allowedMoves : i ∈ allowedMoves b p ↔
    (indexForFirstPit p ≤ i ∧ i < indexForPlayerStore p) ∧ 0 < index b.pits i := by
  rw [allowedMoves, List.mem_filter, indicesForPlayerSide, mem_enumFromTo, decide_eq_true_eq]
  simp only [indexForPlayerStore, getBoardData, boardSize]
  omega

theorem isAllowedMove_iff : isAllowedMove b i = true ↔
    (indexForFirstPit b.player ≤ i ∧ i < indexForPlayerStore b.player) ∧ 0 < index b.pits i := by
  rw [isAllowedMove, List.contains_iff_mem, mem_allowedMoves, getCurPlayer]

theorem replace_eq_set {α : Type*} {xs : List α} {i : ℤ} (hi : 0 ≤ i ∧ i < xs.length) (a : α) :
    replace xs i a = xs.set i.toNat a := by
  have hlt : i.toNat < xs.length := by omega
  cases xs with
  | nil => exact absurd hlt (Nat.not_lt_zero _)
  | cons x xs =>
    rw [List.set_eq_take_append_cons_drop, if_pos hlt, replace, List.drop_drop]
    exact fun h => absurd h (List.cons_ne_nil x xs)

/-- A board : the 14 pits, each an `Int`. -/
structure IsBoard (b : MancalaBoard) : Prop where
  length : b.pits.length = 14
  isInt : ∀ x ∈ b.pits, IsInt x

instance (b : MancalaBoard) : Decidable (IsBoard b) :=
  decidable_of_iff (b.pits.length = 14 ∧ ∀ x ∈ b.pits, IsInt x)
    ⟨fun ⟨hl, hi⟩ => ⟨hl, hi⟩, fun h => ⟨h.length, h.isInt⟩⟩

end Mancala

end ClassProjects
