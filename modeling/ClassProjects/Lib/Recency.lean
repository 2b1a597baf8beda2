import Mathlib.Data.List.Nodup
import Mathlib.Tactic.Common

/-!
# Least recently used

A recency list holds distinct tags, the most recently used first. `access` with room for
`E` tags puts the accessed tag in front : a hit moves it there, a miss adds it, and an
eviction drops the last tag, the least recently used one.

`Invariant` (distinct tags, no more than `E`) is kept by every access. A tag that was just
accessed is in front, so accessing it again is a hit that changes nothing (`outcome_access`,
`access_access`).
-/

namespace Recency

/-- What an access meets. -/
inductive Outcome
  | hit | miss | evict
deriving DecidableEq

variable {τ : Type*} {E : ℕ} {l : List τ} {t : τ}

/-- Distinct tags, no more than `E`. -/
structure Invariant (E : ℕ) (l : List τ) : Prop where
  nodup : l.Nodup
  length_le : l.length ≤ E

theorem invariant_nil : Invariant E ([] : List τ) :=
  ⟨List.nodup_nil, Nat.zero_le E⟩

variable [DecidableEq τ]

/-- A hit if the tag is held, a miss if there is room for it, else an eviction. -/
def outcome (E : ℕ) (l : List τ) (t : τ) : Outcome :=
  if t ∈ l then .hit else if l.length < E then .miss else .evict

/-- The list after an access. -/
def access (E : ℕ) (l : List τ) (t : τ) : List τ :=
  match outcome E l t with
  | .hit => t :: l.erase t
  | .miss => t :: l
  | .evict => t :: l.dropLast

theorem outcome_of_mem (h : t ∈ l) : outcome E l t = .hit :=
  if_pos h

theorem outcome_of_lt (h : t ∉ l) (hl : l.length < E) : outcome E l t = .miss := by
  rw [outcome, if_neg h, if_pos hl]

theorem outcome_of_le (h : t ∉ l) (hl : E ≤ l.length) : outcome E l t = .evict := by
  rw [outcome, if_neg h, if_neg (by omega)]

/-- An access keeps the tags distinct and within the room. -/
theorem Invariant.access (h : Invariant E l) (hE : 0 < E) : Invariant E (access E l t) := by
  by_cases ht : t ∈ l
  · rw [Recency.access, outcome_of_mem ht]
    refine ⟨List.nodup_cons.2 ⟨h.nodup.not_mem_erase, h.nodup.erase t⟩, ?_⟩
    have := List.length_erase_of_mem ht
    have := List.length_pos_of_mem ht
    have := h.length_le
    simp only [List.length_cons]
    omega
  · by_cases hl : l.length < E
    · rw [Recency.access, outcome_of_lt ht hl]
      exact ⟨List.nodup_cons.2 ⟨ht, h.nodup⟩, hl⟩
    · rw [Recency.access, outcome_of_le ht (by omega)]
      refine ⟨List.nodup_cons.2 ⟨fun hd => ht ((List.dropLast_sublist l).subset hd),
        (List.dropLast_sublist l).nodup h.nodup⟩, ?_⟩
      have := h.length_le
      simp only [List.length_cons, List.length_dropLast]
      omega

theorem access_eq_cons : ∃ l', access E l t = t :: l' := by
  unfold access
  split <;> exact ⟨_, rfl⟩

theorem outcome_access : outcome E (access E l t) t = .hit := by
  obtain ⟨l', h⟩ : ∃ l', access E l t = t :: l' := access_eq_cons
  rw [h]
  exact outcome_of_mem List.mem_cons_self

theorem access_access : access E (access E l t) t = access E l t := by
  obtain ⟨l', h⟩ : ∃ l', access E l t = t :: l' := access_eq_cons
  rw [h, access, outcome_of_mem List.mem_cons_self, List.erase_cons_head]

/-! ## One more place -/

theorem erase_take {k : ℕ} (ht : t ∈ l.take (k + 1)) :
    (l.take (k + 1)).erase t = (l.erase t).take k := by
  induction l generalizing k with
  | nil => cases ht
  | cons x l ih =>
    by_cases hx : x = t
    · subst hx
      rw [List.take_succ_cons, List.erase_cons_head, List.erase_cons_head]
    · rw [List.take_succ_cons] at ht ⊢
      obtain rfl | ht := List.mem_cons.1 ht
      · exact absurd rfl hx
      · obtain ⟨k, rfl⟩ : ∃ n, k = n + 1 := by
          cases k with
          | zero => cases ht
          | succ n => exact ⟨n, rfl⟩
        rw [List.erase_cons_tail (by simpa using hx), List.erase_cons_tail (by simpa using hx),
          List.take_succ_cons, ih ht]

theorem take_erase {k : ℕ} (ht : t ∉ l.take k) : (l.erase t).take k = l.take k := by
  by_cases hk : l.length ≤ k
  · rw [List.take_of_length_le hk] at ht
    rw [List.erase_of_not_mem ht]
  · have hlen : (l.take k).length = k := by
      rw [List.length_take]
      omega
    have hsplit : (l.take k ++ l.drop k).erase t = l.take k ++ (l.drop k).erase t :=
      List.erase_append_right _ ht
    rw [List.take_append_drop] at hsplit
    rw [hsplit, List.take_left' hlen]

/-- What a list with one place less holds : the first `E` tags of the longer one. An access
keeps that. -/
theorem access_take (hE : 0 < E) (h : Invariant (E + 1) l) (t : τ) :
    access E (l.take E) t = (access (E + 1) l t).take E := by
  obtain ⟨k, rfl⟩ : ∃ k, E = k + 1 := ⟨E - 1, by omega⟩
  have hlen := h.length_le
  by_cases ht : t ∈ l
  · rw [access, access, outcome_of_mem ht, List.take_succ_cons]
    by_cases htake : t ∈ l.take (k + 1)
    · rw [outcome_of_mem htake]
      exact congrArg (t :: ·) (erase_take htake)
    · -- the tag is the last of the longer list, behind all of the shorter one
      have hfull : (l.take (k + 1)).length = k + 1 := by
        rw [List.length_take]
        by_contra hne
        exact htake (by rwa [List.take_of_length_le (by omega)])
      have hfront : t ∉ l.take k := fun hm =>
        htake ((List.take_prefix_take_left (Nat.le_succ k)).subset hm)
      rw [outcome_of_le htake (by omega), List.dropLast_eq_take, hfull, Nat.add_sub_cancel,
        List.take_take, Nat.min_eq_left (Nat.le_succ k), take_erase hfront]
  · have htake : t ∉ l.take (k + 1) := fun hm => ht (List.mem_of_mem_take hm)
    have hlong : (access (k + 1 + 1) l t).take (k + 1) = t :: l.take k := by
      by_cases hl : l.length < k + 1 + 1
      · rw [access, outcome_of_lt ht hl, List.take_succ_cons]
      · rw [access, outcome_of_le ht (by omega), List.take_succ_cons, List.dropLast_eq_take,
          List.take_take, Nat.min_eq_left (by omega)]
    rw [hlong]
    by_cases hl : l.length < k + 1
    · rw [List.take_of_length_le (by omega), access, outcome_of_lt ht hl,
        List.take_of_length_le (by omega)]
    · have hfull : (l.take (k + 1)).length = k + 1 := by
        rw [List.length_take]
        omega
      rw [access, outcome_of_le htake (by omega), List.dropLast_eq_take, hfull, List.take_take,
        Nat.min_eq_left (by omega), Nat.add_sub_cancel]

/-- The longer list meets a hit where the shorter one does, and evicts only where it does. -/
theorem outcome_take (h : Invariant (E + 1) l) (t : τ) :
    (outcome E (l.take E) t = .hit → outcome (E + 1) l t = .hit) ∧
      (outcome (E + 1) l t = .evict → outcome E (l.take E) t = .evict) := by
  have hlen := h.length_le
  by_cases ht : t ∈ l
  · exact ⟨fun _ => outcome_of_mem ht, fun he => by rw [outcome_of_mem ht] at he; cases he⟩
  · have htake : t ∉ l.take E := fun hm => ht (List.mem_of_mem_take hm)
    refine ⟨fun hh => ?_, fun he => ?_⟩
    · rw [outcome, if_neg htake] at hh
      split_ifs at hh
    · refine outcome_of_le htake ?_
      rw [outcome, if_neg ht] at he
      split_ifs at he with hl
      rw [List.length_take]
      omega

end Recency
