import ClassProjects.CString
import ClassProjects.Mancala.Play
import Mathlib.Data.List.Chain
import Mathlib.Tactic.IntervalCases

/-!
# A game on the terminal

`playMancala.hs` with the text that it prints. `read` is a parameter, the integer that a
typed line is or `none`, and the results hold for every `read`. Its error comes when `move`
looks for the position among the allowed ones. There is one while the game is not over
(`allowedMoves_ne_nil`), and nothing is printed in between.

A board is read off its text (`screen_append_inj`), and the text that ends a game begins like
no board. So the text tells the boards and the winner (`render_inj`). Two boards that follow
each other tell which pit was emptied in between, because a move takes stones from its own pit
and from no other (`move_inj`).

A potential of 42 for a stone outside the stores, and its distance to the store of its side,
gets smaller with every legal move (`move_spends`) : a lap has 42 steps of distance, so what a
stone gains in front of the other store is less than what the store takes. At the start it is
2184.
-/

namespace ClassProjects

namespace Mancala

open Potential

/-! ## What is printed -/

/-- `show` of an `Int`. -/
def showInt (x : ℤ) : List Char :=
  if x < 0 then '-' :: Nat.toDigits 10 x.natAbs else Nat.toDigits 10 x.natAbs

/-- `paren`. -/
def paren (x : ℤ) : List Char :=
  "( ".toList ++ showInt x ++ " )".toList

/-- `toString`. -/
def toString (b : MancalaBoard) (p : Player) : List Char :=
  match p with
  | .playerA => (((playerSide b p).take boardSize.toNat).map paren).foldr (· ++ ·) []
  | .playerB => (((playerSide b p).take boardSize.toNat).reverse.map paren).foldr (· ++ ·) []

/-- `show` of a board. -/
def showBoard (b : MancalaBoard) : List Char :=
  "\n\x7b ".toList ++ showInt (numCaptured b .playerB) ++ " \x7d".toList ++ toString b .playerB ++
    " B".toList ++ "\n".toList ++ toString b .playerA ++ "\x7b ".toList ++
    showInt (numCaptured b .playerA) ++ " \x7d A\n".toList

/-- `playerString`. -/
def playerString (p : Player) : List Char :=
  if playerNum p = 0 then "Player A".toList else "Player B".toList

/-- `winnerString`. There are no two winners (`winners_cases`). -/
def winnerString (board : MancalaBoard) : List Char :=
  match winners board with
  | [] => "\nWe have a tie!\n".toList
  | p :: _ => "\nCongratulations ".toList ++ playerString p ++ "! You have won!\n".toList

/-- `putStrLn`. -/
def putStrLn (s : List Char) : List Char :=
  s ++ ['\n']

/-- What `gameLoop` prints to ask for a move. -/
def screen (board : MancalaBoard) : List Char :=
  let player := playerString (getCurPlayer board)
  putStrLn (showBoard board) ++ putStrLn (player ++ "'s turn: ".toList)

/-- How the program ends : with the game, at the end of the input, or with a line that is
not an integer. -/
inductive Ending
  | over | endOfInput | noParse
deriving DecidableEq

variable (read : List Char → Option ℤ)

/-- `gameLoop` : what it prints while the lines are read, and how it ends. -/
def gameLoopText : MancalaBoard → List (List Char) → Option (List Char × Ending)
  | board, [] =>
    if gameOver board then some (putStrLn (winnerString board), .over)
    else some (screen board, .endOfInput)
  | board, i :: typed =>
    if gameOver board then some (putStrLn (winnerString board), .over)
    else
      match read i with
      | none => some (screen board, .noParse)
      | some i =>
        let n := selected (getCurPlayer board) i
        (move board n).bind fun board' =>
          (gameLoopText board' typed).map fun r => (screen board ++ r.1, r.2)

/-- `main`. -/
def main (typed : List (List Char)) : Option (List Char × Ending) :=
  (gameLoopText read initial typed).map fun r =>
    (putStrLn ("\nWelcome to Mancala!\nTo play, please enter a number 1-6 ".toList ++
      "\ncorresponding to the pit you want to use.".toList) ++ r.1, r.2)

/-! ## The game behind the text -/

/-- A board that is shown, and the pit that is emptied then, if any. -/
structure Turn where
  board : MancalaBoard
  pit : Option ℤ
deriving DecidableEq

/-- The pit that is emptied when a position is selected. -/
def emptied (b : MancalaBoard) (n : ℤ) : Option ℤ :=
  if isAllowedMove b n then some n else none

/-- The turns, and the board on which the game is over, if it is. -/
def session : MancalaBoard → List (List Char) → Option (List Turn × Option MancalaBoard)
  | board, [] => if gameOver board then some ([], some board) else some ([⟨board, none⟩], none)
  | board, i :: typed =>
    if gameOver board then some ([], some board)
    else
      match read i with
      | none => some ([⟨board, none⟩], none)
      | some i =>
        let n := selected (getCurPlayer board) i
        (move board n).bind fun board' =>
          (session board' typed).map fun r => (⟨board, emptied board n⟩ :: r.1, r.2)

/-- What is printed for boards, and for the board on which the game is over. -/
def render (boards : List MancalaBoard) (final : Option MancalaBoard) : List Char :=
  boards.flatMap screen ++ final.elim [] fun b => putStrLn (winnerString b)

/-- A turn leads to the next board. -/
def Turn.Leads (t : Turn) (b' : MancalaBoard) : Prop :=
  match t.pit with
  | none => b' = t.board
  | some i => isAllowedMove t.board i = true ∧ move t.board i = some b'

variable {read} {b b' : MancalaBoard} {p : Player} {r r' : List Char} {x y i i' j k : ℤ} {n : ℕ}

/-! ## Texts that can be read back -/

theorem notMem_showInt (x : ℤ) : ' ' ∉ showInt x := by
  have hdigits : ' ' ∉ Nat.toDigits 10 x.natAbs := fun h =>
    absurd (Nat.isDigit_of_mem_toDigits (by decide) (by decide) h) (by decide)
  unfold showInt
  split_ifs
  · exact fun h => (List.mem_cons.1 h).elim (by decide) hdigits
  · exact hdigits

theorem toDigits_ne_neg (m n : ℕ) : '-' :: Nat.toDigits 10 m ≠ Nat.toDigits 10 n := by
  intro h
  have hmem : '-' ∈ Nat.toDigits 10 n := h ▸ List.mem_cons_self
  exact absurd (Nat.isDigit_of_mem_toDigits (by decide) (by decide) hmem) (by decide)

theorem showInt_inj (h : showInt x = showInt y) : x = y := by
  have hinj : ∀ {m n : ℕ}, Nat.toDigits 10 m = Nat.toDigits 10 n → m = n := by
    intro m n hmn
    rw [← Nat.ofDigitChars_ten_toDigits (n := m), hmn, Nat.ofDigitChars_ten_toDigits]
  unfold showInt at h
  split_ifs at h with hx hy hy
  · have := hinj (List.cons_inj_right _ |>.1 h)
    omega
  · exact absurd h (toDigits_ne_neg _ _)
  · exact absurd h.symm (toDigits_ne_neg _ _)
  · have := hinj h
    omega

/-- A number is read off up to the blank behind it. -/
theorem showInt_append_inj (h : showInt x ++ ' ' :: r = showInt y ++ ' ' :: r') :
    x = y ∧ r = r' := by
  have hcut : ∀ (x : ℤ) (r : List Char),
      (showInt x ++ ' ' :: r).takeWhile (· ≠ ' ') = showInt x := by
    intro x r
    rw [List.takeWhile_append_of_pos, List.takeWhile_cons_of_neg (by decide), List.append_nil]
    intro c hc
    exact decide_eq_true fun hblank => notMem_showInt x (hblank ▸ hc)
  have hx := congrArg (List.takeWhile (· ≠ ' ')) h
  rw [hcut, hcut] at hx
  obtain rfl := showInt_inj hx
  exact ⟨rfl, (List.cons_inj_right _).1 (List.append_cancel_left h)⟩

theorem paren_append_inj (h : paren x ++ r = paren y ++ r') : x = y ∧ r = r' := by
  have hparen : ∀ (x : ℤ) (r : List Char),
      paren x ++ r = "( ".toList ++ (showInt x ++ ' ' :: ')' :: r) := by
    intro x r
    simp [paren]
  rw [hparen, hparen] at h
  obtain ⟨hx, hr⟩ := showInt_append_inj (List.append_cancel_left h)
  exact ⟨hx, (List.cons_inj_right _).1 hr⟩

theorem parens_append_inj {xs ys : List ℤ} (hlen : xs.length = ys.length)
    (h : (xs.map paren).foldr (· ++ ·) [] ++ r = (ys.map paren).foldr (· ++ ·) [] ++ r') :
    xs = ys ∧ r = r' := by
  induction xs generalizing ys with
  | nil =>
    obtain rfl := List.length_eq_zero_iff.1 hlen.symm
    exact ⟨rfl, h⟩
  | cons x xs ih =>
    obtain ⟨y, ys, rfl⟩ := List.exists_cons_of_length_eq_add_one hlen.symm
    simp only [List.map_cons, List.foldr_cons, List.append_assoc] at h
    obtain ⟨rfl, hrest⟩ := paren_append_inj h
    obtain ⟨rfl, hr⟩ := ih (Nat.succ.inj hlen) hrest
    exact ⟨rfl, hr⟩

theorem length_take_playerSide (b : MancalaBoard) (p : Player) :
    ((playerSide b p).take boardSize.toNat).length = 6 := by
  rw [take_playerSide]
  cases p <;> rfl

theorem toString_append_inj (h : toString b p ++ r = toString b' p ++ r') :
    (playerSide b p).take boardSize.toNat = (playerSide b' p).take boardSize.toNat ∧ r = r' := by
  have hlen := (length_take_playerSide b p).trans (length_take_playerSide b' p).symm
  cases p with
  | playerA => exact parens_append_inj hlen h
  | playerB =>
    have hlen' := (List.length_reverse.trans hlen).trans List.length_reverse.symm
    obtain ⟨hside, hr⟩ := parens_append_inj hlen' h
    exact ⟨List.reverse_inj.1 hside, hr⟩

/-- A side is its pits and its store. -/
theorem playerSide_eq_concat (b : MancalaBoard) (p : Player) :
    playerSide b p = (playerSide b p).take boardSize.toNat ++ [numCaptured b p] := by
  rw [take_playerSide, playerSide, List.map_append]
  rfl

theorem playerString_append_inj {p' : Player} (h : playerString p ++ r = playerString p' ++ r') :
    p = p' ∧ r = r' := by
  have hA : playerString .playerA = "Player ".toList ++ ['A'] := rfl
  have hB : playerString .playerB = "Player ".toList ++ ['B'] := rfl
  cases p <;> cases p' <;> simp only [hA, hB, List.append_assoc] at h <;>
    simpa using List.append_cancel_left h

/-- A board is read off what is printed to ask for a move. -/
theorem screen_append_inj (hb : b.pits.length = 14) (hb' : b'.pits.length = 14)
    (h : screen b ++ r = screen b' ++ r') : b = b' ∧ r = r' := by
  have hstore : " \x7d".toList = [' ', '\x7d'] := rfl
  have hend : " \x7d A\n".toList = ' ' :: "\x7d A\n".toList := rfl
  have hscreen : ∀ (b : MancalaBoard) (r : List Char), screen b ++ r =
      "\n\x7b ".toList ++ (showInt (numCaptured b .playerB) ++ ' ' :: '\x7d' ::
        (toString b .playerB ++ (" B".toList ++ ("\n".toList ++ (toString b .playerA ++
          ("\x7b ".toList ++ (showInt (numCaptured b .playerA) ++ ' ' :: ("\x7d A\n".toList ++
            '\n' :: (playerString b.player ++ ("'s turn: ".toList ++ '\n' :: r)))))))))) := by
    intro b r
    unfold screen showBoard
    rw [hstore, hend, getCurPlayer]
    simp only [putStrLn, List.append_assoc, List.cons_append, List.nil_append]
  rw [hscreen, hscreen] at h
  obtain ⟨hstoreB, h⟩ := showInt_append_inj (List.append_cancel_left h)
  obtain ⟨hsideB, h⟩ := toString_append_inj ((List.cons_inj_right _).1 h)
  obtain ⟨hsideA, h⟩ := toString_append_inj (List.append_cancel_left (List.append_cancel_left h))
  obtain ⟨hstoreA, h⟩ := showInt_append_inj (List.append_cancel_left h)
  obtain ⟨hplayer, h⟩ :=
    playerString_append_inj ((List.cons_inj_right _).1 (List.append_cancel_left h))
  have hr := (List.cons_inj_right _).1 (List.append_cancel_left h)
  have hA : playerSide b .playerA = playerSide b' .playerA := by
    rw [playerSide_eq_concat b, playerSide_eq_concat b', hsideA, hstoreA]
  have hB : playerSide b .playerB = playerSide b' .playerB := by
    rw [playerSide_eq_concat b, playerSide_eq_concat b', hsideB, hstoreB]
  have hpits : b.pits = b'.pits := by
    rw [(playerSide_eq hb).1, (playerSide_eq hb').1] at hA
    rw [(playerSide_eq hb).2, (playerSide_eq hb').2] at hB
    rw [← List.take_append_drop 7 b.pits, hA, hB, List.take_append_drop]
  obtain ⟨pits, player⟩ := b
  obtain ⟨pits', player'⟩ := b'
  exact ⟨MancalaBoard.mk.injEq .. ▸ ⟨hpits, hplayer⟩, hr⟩

example : showBoard initial = ("\n\x7b 0 \x7d( 4 )( 4 )( 4 )( 4 )( 4 )( 4 ) B".toList ++
    "\n( 4 )( 4 )( 4 )( 4 )( 4 )( 4 )\x7b 0 \x7d A\n".toList) := by
  decide +kernel

theorem winners_cases (b : MancalaBoard) : winners b = [] ∨ ∃ p, winners b = [p] := by
  simp only [winners]
  split_ifs
  · exact Or.inr ⟨_, rfl⟩
  · exact Or.inr ⟨_, rfl⟩
  · exact Or.inl rfl

/-- The winner is read off what is printed when the game is over. -/
theorem winnerString_inj (h : winnerString b = winnerString b') : winners b = winners b' := by
  have htie : "\nWe have a tie!\n".toList = '\n' :: 'W' :: "e have a tie!\n".toList := rfl
  have hwon : "\nCongratulations ".toList = '\n' :: 'C' :: "ongratulations ".toList := rfl
  unfold winnerString at h
  rcases winners_cases b with hw | ⟨p, hw⟩ <;> rcases winners_cases b' with hw' | ⟨p', hw'⟩ <;>
    simp only [hw, hw', List.append_assoc] at h ⊢
  · simp [htie, hwon] at h
  · simp [htie, hwon] at h
  · rw [(playerString_append_inj (List.append_cancel_left h)).1]

/-- What is printed to ask for a move has a brace behind the first newline. -/
theorem screen_cons (b : MancalaBoard) : ∃ s, screen b = '\n' :: '\x7b' :: s :=
  ⟨_, rfl⟩

theorem winnerString_cons (b : MancalaBoard) :
    ∃ c s, winnerString b = '\n' :: c :: s ∧ c ≠ '\x7b' := by
  unfold winnerString
  rcases winners_cases b with hw | ⟨p, hw⟩ <;> rw [hw]
  · exact ⟨'W', _, rfl, by decide⟩
  · exact ⟨'C', _, rfl, by decide⟩

theorem screen_append_ne {f : MancalaBoard} : screen b ++ r ≠ putStrLn (winnerString f) := by
  obtain ⟨s, hs⟩ := screen_cons b
  obtain ⟨c, t, ht, hc⟩ := winnerString_cons f
  intro h
  rw [hs, putStrLn, ht] at h
  exact hc (List.cons.inj (List.cons.inj h).2).1.symm

/-- The boards and the winner are read off the text. -/
theorem render_inj {bs bs' : List MancalaBoard} (f f' : Option MancalaBoard)
    (hbs : ∀ b ∈ bs, b.pits.length = 14) (hbs' : ∀ b ∈ bs', b.pits.length = 14) :
    render bs f = render bs' f' ↔ bs = bs' ∧ f.map winners = f'.map winners := by
  have hempty : ∀ {f : MancalaBoard}, putStrLn (winnerString f) ≠ [] := by
    intro f
    exact List.append_ne_nil_of_right_ne_nil _ (List.cons_ne_nil _ _)
  have hcons : ∀ (b : MancalaBoard) (bs : List MancalaBoard) (f : Option MancalaBoard),
      render (b :: bs) f = screen b ++ render bs f := by
    intro b bs f
    rw [render, List.flatMap_cons, List.append_assoc, ← render]
  have hne : ∀ (b : MancalaBoard) (bs : List MancalaBoard) (f f' : Option MancalaBoard),
      render (b :: bs) f ≠ render [] f' := by
    intro b bs f f' h
    rw [hcons] at h
    cases f' with
    | none =>
      obtain ⟨s, hs⟩ := screen_cons b
      rw [hs] at h
      cases h
    | some f' => exact screen_append_ne h
  constructor
  · intro h
    induction bs generalizing bs' with
    | nil =>
      cases bs' with
      | nil =>
        refine ⟨rfl, ?_⟩
        cases f <;> cases f'
        · rfl
        · exact absurd h.symm hempty
        · exact absurd h hempty
        · exact congrArg some (winnerString_inj (List.append_cancel_right h))
      | cons b' bs' => exact absurd h.symm (hne _ _ _ _)
    | cons b bs ih =>
      cases bs' with
      | nil => exact absurd h (hne _ _ _ _)
      | cons b' bs' =>
        rw [hcons, hcons] at h
        obtain ⟨rfl, hrest⟩ := screen_append_inj (hbs b List.mem_cons_self)
          (hbs' b' List.mem_cons_self) h
        obtain ⟨rfl, hf⟩ := ih (fun b hb => hbs b (List.mem_cons_of_mem _ hb))
          (fun b hb => hbs' b (List.mem_cons_of_mem _ hb)) hrest
        exact ⟨rfl, hf⟩
  · rintro ⟨rfl, hf⟩
    have htext : ∀ {f f' : MancalaBoard}, winners f = winners f' →
        winnerString f = winnerString f' := by
      intro f f' h
      unfold winnerString
      rw [h]
    match f, f', hf with
    | none, none, _ => rfl
    | some f, some f', hf =>
      rw [render, render, Option.elim_some, Option.elim_some, htext (Option.some.inj hf)]

/-! ## What a move can be recognised by -/

/-- A move takes stones from its own pit and from no other of the player. -/
theorem index_move (h : Fair b) (hi : isAllowedMove b i = true) (hb' : move b i = some b') :
    index b'.pits i < index b.pits i ∧
      ∀ k, (0 ≤ k ∧ k < 14) → k ≠ i → index b.pits k ≤ index b'.pits k := by
  obtain ⟨hpos, -, -, n, hn⟩ := isAllowedMove_spec hi
  obtain ⟨b₁, hb₁, -, hle⟩ := weigh_move_le (w := fun m => if m = i.toNat then 1 else 0)
    (fun k => by split_ifs <;> decide) h.isBoard hi hn
  obtain rfl := Option.some.inj (hb'.symm.trans hb₁)
  obtain ⟨b₂, ks, hb₂, -, hweigh⟩ := weigh_move h hi
  obtain rfl := Option.some.inj (hb'.symm.trans hb₂)
  constructor
  · -- the first stone goes into the next pit
    set j := indexForPlayerStore (nextPlayer b.player)
    have hfirst : (advance j i).toNat ≠ i.toNat := by
      have hmem := advance_mem j i
      have hne : advance j i ≠ i := by
        simp only [advance]
        split_ifs <;> omega
      omega
    have hrest : total ((walk j n (advance j i)).map
        fun k => if k.toNat = i.toNat then (1 : ℤ) else 0) ≤ n := by
      have hone : ∀ x ∈ (walk j n (advance j i)).map
          (fun k => if k.toNat = i.toNat then (1 : ℤ) else 0), x ≤ 1 := by
        intro x hx
        obtain ⟨k, -, rfl⟩ := List.mem_map.1 hx
        split_ifs <;> omega
      simpa using total_le hone
    rw [index_eq_weigh, index_eq_weigh b.pits]
    rw [walk, List.map_cons, total, if_neg hfirst, if_pos rfl] at hle
    omega
  · intro k hk hki
    have hne : i.toNat ≠ k.toNat := by omega
    have hnn : 0 ≤ total (ks.map fun m => if m.toNat = k.toNat then (1 : ℤ) else 0) := by
      refine total_nonneg fun x hx => ?_
      obtain ⟨m, -, rfl⟩ := List.mem_map.1 hx
      split_ifs <;> omega
    rw [index_eq_weigh, index_eq_weigh b'.pits, hweigh, if_neg hne]
    omega

/-- No two turns on a board lead to the same board. -/
theorem Turn.leads_inj {t t' : Turn} (h : Fair t.board) (hboard : t.board = t'.board)
    (ht : t.Leads b) (ht' : t'.Leads b) : t = t' := by
  obtain ⟨c, pit⟩ := t
  obtain ⟨c', pit'⟩ := t'
  obtain rfl : c = c' := hboard
  cases pit with
  | none =>
    cases pit' with
    | none => rfl
    | some i' =>
      obtain rfl : b = c := ht
      exact absurd (index_move h ht'.1 ht'.2).1 (lt_irrefl _)
  | some i =>
    cases pit' with
    | none =>
      obtain rfl : b = c := ht'
      exact absurd (index_move h ht.1 ht.2).1 (lt_irrefl _)
    | some i' =>
      obtain ⟨hpos, -⟩ := isAllowedMove_spec ht.1
      have hii : i = i' := by
        by_contra hne
        exact absurd (index_move h ht.1 ht.2).1
          (not_lt.2 ((index_move h ht'.1 ht'.2).2 i hpos hne))
      rw [hii]

/-- The boards tell all turns but the last. -/
theorem dropLast_eq_of_boards {ts ts' : List Turn} (hfair : ∀ t ∈ ts, Fair t.board)
    (hts : ts.IsChain fun t u => t.Leads u.board) (hts' : ts'.IsChain fun t u => t.Leads u.board)
    (h : ts.map Turn.board = ts'.map Turn.board) : ts.dropLast = ts'.dropLast := by
  induction ts generalizing ts' with
  | nil =>
    cases ts' with
    | nil => rfl
    | cons t' ts' => cases h
  | cons t ts ih =>
    cases ts' with
    | nil => cases h
    | cons t' ts' =>
      obtain ⟨hboard, htail⟩ := List.cons.inj h
      have hrest := ih (fun t ht => hfair t (List.mem_cons_of_mem _ ht)) hts.tail hts'.tail htail
      cases ts with
      | nil =>
        obtain rfl := List.map_eq_nil_iff.1 htail.symm
        rfl
      | cons u ts =>
        cases ts' with
        | nil => cases htail
        | cons u' ts' =>
          have hu : u.board = u'.board := (List.cons.inj htail).1
          have hlead := (List.isChain_cons_cons.1 hts).1
          have hlead' := (List.isChain_cons_cons.1 hts').1
          rw [← hu] at hlead'
          obtain rfl := Turn.leads_inj (hfair t List.mem_cons_self) hboard hlead hlead'
          rw [List.dropLast_cons_cons, List.dropLast_cons_cons, hrest, List.tail_cons]

/-! ## How long a game is -/

/-- What a stone at a position is worth. -/
def budget (k : ℕ) : ℤ :=
  42 * outside k + distance k

/-- The distances that a walk from a position meets until it is at the player's store, or is
there again. -/
def ahead (p : Player) (k : ℤ) : ℤ :=
  let d := distance k.toNat
  if k = indexForPlayerStore p then 42
  else if indexForFirstPit p ≤ k ∧ k < indexForPlayerStore p then d * (d - 1) / 2
  else d * (d - 1) / 2 + 21

theorem budget_nonneg (k : ℕ) : 0 ≤ budget k := by
  have hout := outside_nonneg k
  have hdist := distance_nonneg k
  unfold budget
  omega

theorem budget_advance (hk : 0 ≤ k ∧ k < 14) (hne : k ≠ indexForPlayerStore (nextPlayer p)) :
    0 ≤ ahead p k ∧
      budget (advance (indexForPlayerStore (nextPlayer p)) k).toNat +
        ahead p (advance (indexForPlayerStore (nextPlayer p)) k) = 42 + ahead p k := by
  obtain ⟨hge, hlt⟩ := hk
  cases p <;> interval_cases k <;> first | exact absurd rfl hne | decide

/-- The worth of the stones along a walk. -/
theorem total_budget_walk (hk : 0 ≤ k ∧ k < 14) (hne : k ≠ indexForPlayerStore (nextPlayer p)) :
    total ((walk (indexForPlayerStore (nextPlayer p)) n k).map fun k => budget k.toNat) ≤
      42 * n + ahead p k := by
  induction n generalizing k with
  | zero => simpa [walk, total] using (budget_advance hk hne).1
  | succ n ih =>
    obtain ⟨-, hstep⟩ := budget_advance hk hne
    have hrest := ih (advance_mem _ k) (advance_ne _ k)
    rw [walk, List.map_cons, total]
    push_cast
    omega

/-- A walk that reaches the player's store has a step for each position in between. -/
theorem store_mem_walk (hi : indexForFirstPit p ≤ i ∧ i < indexForPlayerStore p)
    (hstore : indexForPlayerStore p ∈ walk (indexForPlayerStore (nextPlayer p)) n i) :
    indexForPlayerStore p - i ≤ n := by
  induction n generalizing i with
  | zero => exact absurd hstore List.not_mem_nil
  | succ n ih =>
    have hp := positions p
    have hnext : advance (indexForPlayerStore (nextPlayer p)) i = i + 1 := by
      rw [advance_of_ne] <;> omega
    rw [walk, hnext] at hstore
    rcases List.mem_cons.1 hstore with heq | hstore
    · omega
    · by_cases hlast : i + 1 = indexForPlayerStore p
      · omega
      · have hrest := ih (i := i + 1) (by omega) hstore
        omega

/-- Every legal move makes the stones worth less. -/
theorem move_spends (h : IsBoard b) (hi : isAllowedMove b i = true) (hb' : move b i = some b') :
    weigh budget b'.pits < weigh budget b.pits := by
  obtain ⟨hpos, -, hne, n, hn⟩ := isAllowedMove_spec hi
  obtain ⟨hside, -⟩ := isAllowedMove_iff.1 hi
  have hp := positions b.player
  obtain ⟨b'', hb'', -, hle⟩ := weigh_move_le budget_nonneg h hi hn
  obtain rfl := Option.some.inj (hb'.symm.trans hb'')
  suffices hwalk : total ((walk (indexForPlayerStore (nextPlayer b.player)) (n + 1) i).map
      fun k => budget k.toNat) < budget i.toNat * (n + 1 : ℕ) by omega
  have hworth : budget i.toNat = 42 + (indexForPlayerStore b.player - i) := by
    unfold budget outside distance
    split_ifs <;> omega
  by_cases hstore : indexForPlayerStore b.player ∈
      walk (indexForPlayerStore (nextPlayer b.player)) (n + 1) i
  · -- what is in front of the store is met once, and by at least as many stones
    have hsteps := store_mem_walk hside hstore
    have htotal := total_budget_walk (n := n + 1) hpos hne
    have hahead : 2 * ahead b.player i ≤
        (indexForPlayerStore b.player - i) * (indexForPlayerStore b.player - i - 1) := by
      have hdist : distance i.toNat = indexForPlayerStore b.player - i := by
        unfold distance
        split_ifs <;> omega
      rw [ahead, if_neg (by omega), if_pos hside, hdist]
      exact Int.mul_ediv_self_le (by decide)
    rw [hworth]
    nlinarith
  · have hle' : ∀ x ∈ (walk (indexForPlayerStore (nextPlayer b.player)) (n + 1) i).map
        (fun k => budget k.toNat), x ≤ budget i.toNat - 1 := by
      intro x hx
      obtain ⟨k, hk, rfl⟩ := List.mem_map.1 hx
      have hnear := walk_near hside hstore k hk
      unfold budget outside distance
      split_ifs <;> omega
    have htotal := total_le hle'
    rw [List.length_map, length_walk, mul_sub, mul_one, mul_comm] at htotal
    omega

/-! ## Sessions -/

/-- What the turns from a board have in common, whatever is typed. -/
structure Recorded (b : MancalaBoard) (ts : List Turn) : Prop where
  fair : ∀ t ∈ ts, Fair t.board
  leads : ts.IsChain fun t u => t.Leads u.board
  head : ∀ t ∈ ts.head?, t.board = b
  moves : (ts.countP (·.pit.isSome) : ℤ) ≤ weigh budget b.pits

theorem Fair.weigh_budget (h : Fair b) : 0 ≤ weigh budget b.pits :=
  weigh_nonneg budget_nonneg h.nonneg

theorem recorded_nil (h : Fair b) : Recorded b [] :=
  ⟨fun _ ht => absurd ht List.not_mem_nil, .nil, fun _ ht => (Option.some_ne_none _ ht.symm).elim,
    h.weigh_budget⟩

theorem recorded_single (h : Fair b) : Recorded b [⟨b, none⟩] := by
  refine ⟨?_, .singleton _, ?_, h.weigh_budget⟩
  · rintro t ht
    rwa [List.mem_singleton.1 ht]
  · rintro t ht
    rw [← Option.some.inj ht]

/-- One more turn in front. -/
theorem Recorded.cons {t : Turn} {ts : List Turn} (h : Recorded b' ts) (ht : Fair t.board)
    (hlead : t.Leads b')
    (hspent : (if t.pit.isSome then 1 else 0) + weigh budget b'.pits ≤ weigh budget t.board.pits) :
    Recorded t.board (t :: ts) where
  fair := List.forall_mem_cons.2 ⟨ht, h.fair⟩
  leads := List.isChain_cons.2 ⟨fun u hu => (h.head u hu).symm ▸ hlead, h.leads⟩
  head := fun u hu => by rw [← Option.some.inj hu]
  moves := by
    have hrest := h.moves
    rw [List.countP_cons]
    push_cast
    omega

/-- The turn of a number that is typed. -/
theorem turn_of_selected (h : Fair b) (k : ℤ) :
    let n := selected (getCurPlayer b) k
    ∃ b', move b n = some b' ∧ Fair b' ∧ Turn.Leads ⟨b, emptied b n⟩ b' ∧
      (if (emptied b n).isSome then 1 else 0) + weigh budget b'.pits ≤ weigh budget b.pits := by
  intro n
  obtain ⟨b', hb', hfair, -, hchange⟩ := turn_spec h k
  refine ⟨b', hb', hfair, ?_⟩
  by_cases hi : isAllowedMove b n = true
  · have hless := move_spends h.isBoard hi hb'
    rw [emptied, if_pos hi, Option.isSome_some, if_pos rfl]
    exact ⟨⟨hi, hb'⟩, by omega⟩
  · obtain rfl : b' = b := not_not.1 fun hne => hi (hchange.1 hne)
    rw [emptied, if_neg hi]
    exact ⟨rfl, by simp⟩

/-- When the game is over, the loop says who has won. -/
theorem gameLoopText_over (read : List Char → Option ℤ) (hover : gameOver b = true)
    (typed : List (List Char)) : session read b typed = some ([], some b) ∧
      gameLoopText read b typed = some (render [] (some b), .over) := by
  rw [render, List.flatMap_nil, List.nil_append, Option.elim_some]
  cases typed with
  | nil => exact ⟨by rw [session, if_pos hover], by rw [gameLoopText, if_pos hover]⟩
  | cons i typed => exact ⟨by rw [session, if_pos hover], by rw [gameLoopText, if_pos hover]⟩

/-- What is printed is the text of the turns, and every turn but one is for a line. -/
theorem session_spec (read : List Char → Option ℤ) (h : Fair b) (typed : List (List Char)) :
    ∃ ts f e, session read b typed = some (ts, f) ∧
      gameLoopText read b typed = some (render (ts.map Turn.board) f, e) ∧ Recorded b ts ∧
      (e = .endOfInput → ts.length = typed.length + 1) := by
  have hshown : ∀ b : MancalaBoard, render [b] none = screen b := fun b => by
    rw [render, List.flatMap_singleton, Option.elim_none, List.append_nil]
  induction typed generalizing b with
  | nil =>
    by_cases hover : gameOver b = true
    · obtain ⟨hts, htext⟩ := gameLoopText_over read hover []
      exact ⟨_, _, _, hts, htext, recorded_nil h, fun he => by cases he⟩
    · refine ⟨[⟨b, none⟩], none, .endOfInput, ?_, ?_, recorded_single h, fun _ => rfl⟩
      · rw [session, if_neg hover]
      · rw [gameLoopText, if_neg hover, List.map_singleton, hshown]
  | cons i typed ih =>
    by_cases hover : gameOver b = true
    · obtain ⟨hts, htext⟩ := gameLoopText_over read hover (i :: typed)
      exact ⟨_, _, _, hts, htext, recorded_nil h, fun he => by cases he⟩
    · rw [session, gameLoopText, if_neg hover, if_neg hover]
      cases hread : read i with
      | none =>
        refine ⟨[⟨b, none⟩], none, .noParse, rfl, ?_, recorded_single h, fun he => by cases he⟩
        rw [List.map_singleton, hshown]
      | some k =>
        obtain ⟨b', hb', hfair, hlead, hspent⟩ := turn_of_selected h k
        obtain ⟨ts, f, e, hts, htext, hrec, hlen⟩ := ih hfair
        refine ⟨_ :: ts, f, e, ?_, ?_, hrec.cons h hlead hspent, fun he => ?_⟩
        · simp only [hb', Option.bind_some, hts, Option.map_some]
        · simp only [hb', Option.bind_some, htext, Option.map_some, render, List.map_cons,
            List.flatMap_cons, List.append_assoc]
        · rw [List.length_cons, List.length_cons, hlen he]

/-- The boards of a session are those of `gameLoop` on the integers that are read. -/
theorem gameLoop_of_session {typed : List (List Char)} {ts : List Turn} {f : Option MancalaBoard}
    (hs : session read b typed = some (ts, f)) :
    (∀ m t, ts[m]? = some t → gameLoop b ((typed.take m).filterMap read) = some t.board) ∧
      ∀ c, f = some c → gameLoop b ((typed.take ts.length).filterMap read) = some c := by
  have hsingle : ∀ (b : MancalaBoard) (typed : List (List Char)) (m : ℕ) (t : Turn),
      [(⟨b, none⟩ : Turn)][m]? = some t →
        gameLoop b ((typed.take m).filterMap read) = some t.board := by
    intro b typed m t ht
    obtain ⟨hm, rfl⟩ := List.getElem?_eq_some_iff.1 ht
    obtain rfl : m = 0 := by simpa using hm
    rfl
  induction typed generalizing b ts with
  | nil =>
    rw [session] at hs
    split_ifs at hs <;> cases hs
    · exact ⟨fun m t ht => (Option.some_ne_none t ht.symm).elim, fun c hc => hc⟩
    · exact ⟨hsingle b [], fun c hc => by cases hc⟩
  | cons i typed ih =>
    by_cases hover : gameOver b = true
    · rw [session, if_pos hover] at hs
      cases hs
      exact ⟨fun m t ht => (Option.some_ne_none t ht.symm).elim, fun c hc => hc⟩
    · rw [session, if_neg hover] at hs
      cases hread : read i with
      | none =>
        rw [hread] at hs
        cases hs
        exact ⟨hsingle b _, fun c hc => by cases hc⟩
      | some k =>
        rw [hread] at hs
        obtain ⟨b', hb', hs⟩ := Option.bind_eq_some_iff.1 hs
        obtain ⟨⟨us, g⟩, hus, heq⟩ := Option.map_eq_some_iff.1 hs
        cases heq
        have hnext : ∀ typed', gameLoop b ((i :: typed').filterMap read) =
            gameLoop b' (typed'.filterMap read) := by
          intro typed'
          rw [List.filterMap_cons_some hread, gameLoop, if_neg hover]
          dsimp only
          rw [hb', Option.bind_some]
        obtain ⟨hboards, hfinal⟩ := ih hus
        refine ⟨fun m t ht => ?_, fun c hc => ?_⟩
        · cases m with
          | zero =>
            obtain rfl := Option.some.inj ht
            rfl
          | succ m =>
            rw [List.take_succ_cons, hnext]
            exact hboards m t ht
        · rw [List.length_cons, List.take_succ_cons, hnext]
          exact hfinal c hc

theorem fair_initial : Fair initial :=
  ⟨rfl, by decide, by decide⟩

/-- Two sessions print the same if and only if they show the same boards and have the same
winner, whatever is typed and however it is read ; and then all turns but the last empty the
same pits. -/
theorem main_text_iff (read read' : List Char → Option ℤ) (typed typed' : List (List Char)) :
    ∃ text e ts f text' e' ts' f',
      main read typed = some (text, e) ∧ session read initial typed = some (ts, f) ∧
      main read' typed' = some (text', e') ∧ session read' initial typed' = some (ts', f') ∧
      (text = text' ↔
        ts.map Turn.board = ts'.map Turn.board ∧ f.map winners = f'.map winners) ∧
      (text = text' → ts.dropLast = ts'.dropLast) := by
  obtain ⟨ts, f, e, hts, htext, hrec, -⟩ := session_spec read fair_initial typed
  obtain ⟨ts', f', e', hts', htext', hrec', -⟩ := session_spec read' fair_initial typed'
  have hlen : ∀ {ts : List Turn}, Recorded initial ts →
      ∀ b ∈ ts.map Turn.board, b.pits.length = 14 := by
    intro ts hrec b hb
    obtain ⟨t, ht, rfl⟩ := List.mem_map.1 hb
    exact (hrec.fair t ht).length
  have hiff := render_inj f f' (hlen hrec) (hlen hrec')
  refine ⟨_, e, ts, f, _, e', ts', f', by rw [main, htext, Option.map_some], hts,
    by rw [main, htext', Option.map_some], hts', ?_, fun h => ?_⟩
  · rw [List.append_cancel_left_eq]
    exact hiff
  · have hboards := (hiff.1 (List.append_cancel_left h)).1
    exact dropLast_eq_of_boards hrec.fair hrec.leads hrec'.leads hboards

/-- No game has more than 2184 moves, and at the end of the input every other line, and the
prompt without one, was a turn without a move. -/
theorem main_moves (read : List Char → Option ℤ) (typed : List (List Char)) :
    ∃ text e ts f, main read typed = some (text, e) ∧
      session read initial typed = some (ts, f) ∧ ts.countP (·.pit.isSome) ≤ 2184 ∧
      (e = .endOfInput → typed.length < 2184 + ts.countP (·.pit.isNone)) := by
  obtain ⟨ts, f, e, hts, htext, hrec, hlen⟩ := session_spec read fair_initial typed
  have hinitial : weigh budget initial.pits = 2184 := by decide
  have hmoves := hrec.moves
  rw [hinitial] at hmoves
  refine ⟨_, e, ts, f, by rw [main, htext, Option.map_some], hts, by omega, fun he => ?_⟩
  have hsplit := List.length_eq_countP_add_countP (fun t : Turn => t.pit.isSome) (l := ts)
  have hnone : ts.countP (fun t : Turn => t.pit.isNone) =
      ts.countP fun t => decide ¬t.pit.isSome = true := by
    refine List.countP_congr fun t _ => ?_
    cases t.pit <;> simp
  have hall := hlen he
  omega

end Mancala

end ClassProjects
