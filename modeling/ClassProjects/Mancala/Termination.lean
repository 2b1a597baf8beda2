import ClassProjects.Lib.Potential
import ClassProjects.Mancala.Sowing
import Mathlib.Order.WellFounded

/-!
# Every game ends

Two potentials of a board : the stones that are not in a store, and the distances of the
stones to the store of their side. A move whose sowing reaches the player's store decreases
the first. One that does not stays on the player's side, and every stone it moves comes
nearer to the store (`walk_near`), so it decreases the second and keeps the first.

An overflow takes stones away, so it does not spoil the argument : the potentials are
bounded below, and the boards are those with any `Int` in the pits.
-/

namespace ClassProjects

namespace Mancala

open Potential

variable {b b' : MancalaBoard} {p : Player} {pits ks : List ℤ} {w : ℕ → ℤ} {i j k : ℤ} {n : ℕ}

/-! ## The potential of a sowing -/

theorem index_mem (hk : 0 ≤ k ∧ k < pits.length) : index pits k ∈ pits := by
  have hlt : k.toNat < pits.length := by omega
  rw [index, List.getD_eq_getElem _ _ hlt]
  exact List.getElem_mem hlt

theorem weigh_replace (hk : 0 ≤ k ∧ k < pits.length) (x : ℤ) :
    weigh w (replace pits k x) = weigh w pits + w k.toNat * (x - index pits k) := by
  rw [replace_eq_set hk, weigh_set (by omega), index]

theorem isInt_replace (h : ∀ x ∈ pits, IsInt x) (hk : 0 ≤ k ∧ k < pits.length) {y : ℤ}
    (hy : IsInt y) : ∀ x ∈ replace pits k y, IsInt x := by
  rw [replace_eq_set hk]
  intro x hx
  rcases List.mem_or_eq_of_mem_set hx with hx | rfl
  · exact h x hx
  · exact hy

/-- Stones that are added bring at most the weights of their positions. -/
theorem weigh_addStones_le (hw : ∀ k, 0 ≤ w k) (hlen : pits.length = 14)
    (hint : ∀ x ∈ pits, IsInt x) (hks : ∀ k ∈ ks, 0 ≤ k ∧ k < 14) :
    (addStones pits ks).length = 14 ∧ (∀ x ∈ addStones pits ks, IsInt x) ∧
      weigh w (addStones pits ks) ≤ weigh w pits + total (ks.map fun k => w k.toNat) := by
  induction ks generalizing pits with
  | nil => exact ⟨hlen, hint, by simp [addStones, total]⟩
  | cons k ks ih =>
    have hk := hks k List.mem_cons_self
    have hk' : 0 ≤ k ∧ k < pits.length := by omega
    obtain ⟨hlen', hint', hle⟩ := ih (length_addStone hlen hk)
      (isInt_replace hint hk' (isInt_toInt _)) fun k' hk' => hks k' (List.mem_cons_of_mem _ hk')
    refine ⟨hlen', hint', ?_⟩
    have hge : -2 ^ 63 ≤ index pits k := (hint _ (index_mem hk')).1
    have hinc : toInt (index pits k + 1) - index pits k ≤ 1 := by
      have := toInt_le (x := index pits k + 1) (by omega)
      omega
    have hstone := mul_le_mul_of_nonneg_left hinc (hw k.toNat)
    rw [mul_one] at hstone
    have hone : weigh w (addStone pits k) ≤ weigh w pits + w k.toNat := by
      rw [addStone, weigh_replace hk']
      omega
    rw [List.map_cons, total]
    calc weigh w (addStones pits (k :: ks)) ≤ weigh w (addStone pits k) + _ := hle
      _ ≤ weigh w pits + (w k.toNat + _) := by omega

/-- An allowed move takes the weight of its pit and brings those of the walk. -/
theorem weigh_move_le (hw : ∀ k, 0 ≤ w k) (h : IsBoard b) (hi : isAllowedMove b i = true)
    (hn : index b.pits i = (n + 1 : ℕ)) :
    ∃ b', move b i = some b' ∧ IsBoard b' ∧
      weigh w b'.pits ≤ weigh w b.pits - w i.toNat * (n + 1 : ℕ) +
        total ((walk (indexForPlayerStore (nextPlayer b.player)) (n + 1) i).map
          fun k => w k.toNat) := by
  obtain ⟨hpos, -⟩ := isAllowedMove_spec hi
  have hpos' : 0 ≤ i ∧ i < b.pits.length := by
    rw [h.length]
    exact hpos
  obtain ⟨hlen, hint, hle⟩ := weigh_addStones_le hw (length_replace_zero h.length hi)
    (isInt_replace h.isInt hpos' (by decide)) fun k hk => walk_mem hk
  refine ⟨_, move_eq h.length hi hn, ⟨hlen, hint⟩, le_trans hle (le_of_eq ?_)⟩
  rw [weigh_replace hpos', hn, zero_sub, mul_neg]
  rfl

/-! ## The two potentials -/

/-- A stone that is not in a store. -/
def outside (k : ℕ) : ℤ :=
  if k = 6 ∨ k = 13 then 0 else 1

/-- The distance of a position to the store of its side. -/
def distance (k : ℕ) : ℤ :=
  if k ≤ 6 then 6 - k else (13 - k : ℕ)

theorem outside_nonneg (k : ℕ) : 0 ≤ outside k := by
  unfold outside
  split_ifs <;> omega

theorem outside_le_one (k : ℕ) : outside k ≤ 1 := by
  unfold outside
  split_ifs <;> omega

theorem distance_nonneg (k : ℕ) : 0 ≤ distance k := by
  unfold distance
  split_ifs <;> omega

/-- A walk that does not reach the player's store stays in front of it. -/
theorem walk_near (hi : indexForFirstPit p ≤ i ∧ i < indexForPlayerStore p)
    (hstore : indexForPlayerStore p ∉ walk (indexForPlayerStore (nextPlayer p)) n i) :
    ∀ k ∈ walk (indexForPlayerStore (nextPlayer p)) n i, i < k ∧ k < indexForPlayerStore p := by
  induction n generalizing i with
  | zero => exact fun k hk => absurd hk List.not_mem_nil
  | succ n ih =>
    have hp := positions p
    have hnext : advance (indexForPlayerStore (nextPlayer p)) i = i + 1 := by
      rw [advance_of_ne] <;> omega
    rw [walk, hnext] at hstore ⊢
    obtain ⟨hne, hstore⟩ := List.ne_and_not_mem_of_not_mem_cons hstore
    have hrest := ih (i := i + 1) (by omega) hstore
    intro k hk
    rcases List.mem_cons.1 hk with rfl | hk
    · omega
    · have := hrest k hk
      omega

theorem total_outside_le (ks : List ℤ) :
    total (ks.map fun k => outside k.toNat) ≤ ks.length := by
  have hone : ∀ x ∈ ks.map fun k => outside k.toNat, x ≤ 1 := by
    intro x hx
    obtain ⟨k, -, rfl⟩ := List.mem_map.1 hx
    exact outside_le_one _
  simpa using total_le hone

/-- A walk through a store has a stone less outside. -/
theorem total_outside_lt (hk : k ∈ ks) (hstore : outside k.toNat = 0) :
    total (ks.map fun k => outside k.toNat) < ks.length := by
  obtain ⟨front, back, rfl⟩ := List.append_of_mem hk
  have hfront := total_outside_le front
  have hback := total_outside_le back
  rw [List.map_append, total_append, List.map_cons, total, hstore]
  simp only [List.length_append, List.length_cons]
  omega

/-- Stones between a pit and the store of its side are nearer to the store. -/
theorem total_distance_le (hi : indexForFirstPit p ≤ i ∧ i < indexForPlayerStore p)
    (hnear : ∀ k ∈ ks, i < k ∧ k < indexForPlayerStore p) :
    total (ks.map fun k => distance k.toNat) ≤ ks.length * (distance i.toNat - 1) := by
  have hbound : ∀ x ∈ ks.map fun k => distance k.toNat, x ≤ distance i.toNat - 1 := by
    intro x hx
    obtain ⟨k, hk, rfl⟩ := List.mem_map.1 hx
    have hp := positions p
    have hbetween := hnear k hk
    unfold distance
    split_ifs <;> omega
  simpa using total_le hbound

/-- Every allowed move of a board gives a board, and decreases the stones outside or,
keeping these, the distances. -/
theorem move_decreases (h : IsBoard b) (hi : isAllowedMove b i = true) :
    ∃ b', move b i = some b' ∧ IsBoard b' ∧
      (weigh outside b'.pits < weigh outside b.pits ∨
        weigh outside b'.pits ≤ weigh outside b.pits ∧
          weigh distance b'.pits < weigh distance b.pits) := by
  obtain ⟨-, -, -, n, hn⟩ := isAllowedMove_spec hi
  obtain ⟨hside, -⟩ := isAllowedMove_iff.1 hi
  have hp := positions b.player
  obtain ⟨b', hb', hboard, hout⟩ := weigh_move_le outside_nonneg h hi hn
  obtain ⟨b'', hb'', -, hdist⟩ := weigh_move_le distance_nonneg h hi hn
  obtain rfl := Option.some.inj (hb'.symm.trans hb'')
  refine ⟨b', hb', hboard, ?_⟩
  have hi1 : outside i.toNat = 1 := by
    unfold outside
    rw [if_neg]
    omega
  rw [hi1, one_mul] at hout
  by_cases hstore : indexForPlayerStore b.player ∈
      walk (indexForPlayerStore (nextPlayer b.player)) (n + 1) i
  · have hlt := total_outside_lt hstore (by unfold outside; rw [if_pos]; omega)
    rw [length_walk] at hlt
    exact Or.inl (by omega)
  · -- no stone leaves the player's side : each comes nearer to the store
    have hle := total_distance_le hside (walk_near hside hstore)
    have hle' := total_outside_le (walk (indexForPlayerStore (nextPlayer b.player)) (n + 1) i)
    rw [length_walk] at hle hle'
    refine Or.inr ⟨by omega, ?_⟩
    rw [mul_sub, mul_one, mul_comm] at hle
    omega

/-! ## Plays -/

/-- One legal move. -/
def Plays (b b' : MancalaBoard) : Prop :=
  ∃ i, isAllowedMove b i = true ∧ move b i = some b'

theorem Plays.decreases (hb : Plays b b') (h : IsBoard b) :
    IsBoard b' ∧ (weigh outside b'.pits < weigh outside b.pits ∨
      weigh outside b'.pits ≤ weigh outside b.pits ∧
        weigh distance b'.pits < weigh distance b.pits) := by
  obtain ⟨i, hi, hmove⟩ := hb
  obtain ⟨b'', hb'', hdec⟩ := move_decreases h hi
  obtain rfl := Option.some.inj (hmove.symm.trans hb'')
  exact hdec

theorem plays_wellFounded : WellFounded fun b' b => IsBoard b ∧ Plays b b' := by
  obtain ⟨lo, hlo⟩ := weigh_bounded outside_nonneg 14 (-2 ^ 63)
  obtain ⟨lo', hlo'⟩ := weigh_bounded distance_nonneg 14 (-2 ^ 63)
  have hboard : ∀ b' b, IsBoard b ∧ Plays b b' → IsBoard b' := fun b' b hb =>
    (hb.2.decreases hb.1).1
  have hout : ∀ b' b, IsBoard b ∧ Plays b b' → lo ≤ weigh outside b'.pits := fun b' b hb =>
    hlo _ (hboard b' b hb).length fun x hx => ((hboard b' b hb).isInt x hx).1
  have hdist : ∀ b' b, IsBoard b ∧ Plays b b' → lo' ≤ weigh distance b'.pits := fun b' b hb =>
    hlo' _ (hboard b' b hb).length fun x hx => ((hboard b' b hb).isInt x hx).1
  exact wellFounded_of_potentials (fun b => weigh outside b.pits) (fun b => weigh distance b.pits)
    hout hdist fun b' b hb => (hb.2.decreases hb.1).2

/-- Every game ends. On a board, whatever `Int` its pits hold, an allowed move succeeds and
gives a board, legal moves are well-founded, and no play goes on forever ; the initial
board is one. -/
theorem every_play_ends :
    (∀ b i, IsBoard b → isAllowedMove b i = true → ∃ b', move b i = some b' ∧ IsBoard b') ∧
    (WellFounded fun b' b => IsBoard b ∧ Plays b b') ∧
    (∀ b, IsBoard b →
      ¬∃ play : ℕ → MancalaBoard, play 0 = b ∧ ∀ k, Plays (play k) (play (k + 1))) ∧
    IsBoard initial := by
  refine ⟨fun b i h hi => ?_, plays_wellFounded, ?_, by decide⟩
  · obtain ⟨b', hb', hboard, -⟩ := move_decreases h hi
    exact ⟨b', hb', hboard⟩
  · rintro b h ⟨play, rfl, hplay⟩
    have hall : ∀ k, IsBoard (play k) := by
      intro k
      induction k with
      | zero => exact h
      | succ k ih => exact ((hplay k).decreases ih).1
    exact (wellFounded_iff_isEmpty_descending_chain.1 plays_wellFounded).false
      ⟨play, fun k => ⟨hall k, hplay k⟩⟩

end Mancala

end ClassProjects
