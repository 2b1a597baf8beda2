import ClassProjects.Lib.Recency
import Mathlib.Data.List.Dedup

/-!
# Reuse distance

`stack h` holds the tags of a history `h`, the last access first, each tag once, in the order
of its last access. It does not depend on the room : what a recency list with room for `E`
tags holds after the history is `(stack h).take E`, for every `E` (`access_stack`). So a hit
is a matter of the history alone. The tag has been accessed before, and less than `E`
distinct tags have been accessed since (`Reused`).

A recency list only compares tags, so a renaming that keeps them apart changes nothing
(`access_map`, `outcome_map`).
-/

namespace Recency

variable {τ υ : Type*} [DecidableEq τ] [DecidableEq υ] {E : ℕ} {l h : List τ} {t : τ}

/-- The tags of a history in the order of their last access. -/
def stack : List τ → List τ
  | [] => []
  | t :: h => t :: (stack h).erase t

/-- The tag has been accessed before, and less than `E` distinct tags since. -/
def Reused (E : ℕ) (h : List τ) (t : τ) : Prop :=
  t ∈ h ∧ (h.takeWhile (· ≠ t)).dedup.length < E

instance : Decidable (Reused E h t) :=
  inferInstanceAs (Decidable (_ ∧ _))

/-! ## The stack -/

theorem mem_stack : t ∈ stack h ↔ t ∈ h := by
  induction h with
  | nil => exact Iff.rfl
  | cons x h ih =>
    rw [stack, List.mem_cons, List.mem_cons]
    by_cases hx : t = x
    · exact iff_of_true (Or.inl hx) (Or.inl hx)
    · rw [List.mem_erase_of_ne hx, ih]

theorem nodup_stack (h : List τ) : (stack h).Nodup := by
  induction h with
  | nil => exact List.nodup_nil
  | cons x h ih => exact List.nodup_cons.2 ⟨ih.not_mem_erase, ih.erase x⟩

/-- As many as there are distinct tags. -/
theorem length_stack (h : List τ) : (stack h).length = h.dedup.length := by
  refine List.Perm.length_eq ((List.perm_ext_iff_of_nodup (nodup_stack h) h.nodup_dedup).2 ?_)
  intro t
  rw [mem_stack, List.mem_dedup]

/-- The tags accessed since the last access of `t` are in front of it. -/
theorem stack_append {pre : List τ} (post : List τ) (ht : t ∉ pre) :
    ∃ rest, stack (pre ++ t :: post) = stack pre ++ t :: rest := by
  induction pre with
  | nil => exact ⟨_, rfl⟩
  | cons x pre ih =>
    have hx : x ≠ t := fun he => ht (he ▸ List.mem_cons_self)
    obtain ⟨rest, hrest⟩ := ih fun hm => ht (List.mem_cons_of_mem x hm)
    by_cases hmem : x ∈ stack pre
    · refine ⟨rest, ?_⟩
      rw [List.cons_append, stack, hrest, List.erase_append_left _ hmem]
      rfl
    · refine ⟨rest.erase x, ?_⟩
      rw [List.cons_append, stack, hrest, List.erase_append_right _ hmem,
        List.erase_cons_tail (by simpa using Ne.symm hx), stack, List.erase_of_not_mem hmem]
      rfl

/-- The first `E` tags of the stack are those reused within the distance. -/
theorem mem_take_stack : t ∈ (stack h).take E ↔ Reused E h t := by
  by_cases ht : t ∈ h
  · obtain ⟨pre, post, rfl, hpre⟩ := List.eq_append_cons_of_mem ht
    obtain ⟨rest, hrest⟩ := stack_append post hpre
    have hne : ∀ x ∈ pre, decide (x ≠ t) = true := fun x hx =>
      decide_eq_true fun he => hpre (he ▸ hx)
    have htake : (pre ++ t :: post).takeWhile (· ≠ t) = pre := by
      rw [List.takeWhile_append_of_pos hne, List.takeWhile_cons_of_neg (by simp), List.append_nil]
    have hout : t ∉ stack pre := fun hm => hpre (mem_stack.1 hm)
    rw [Reused, htake, ← length_stack, hrest, List.take_append, List.mem_append]
    constructor
    · rintro (hm | hm)
      · exact absurd (List.mem_of_mem_take hm) hout
      · refine ⟨ht, ?_⟩
        by_contra hle
        rw [Nat.sub_eq_zero_of_le (by omega)] at hm
        simp at hm
    · rintro ⟨-, hlt⟩
      obtain ⟨n, hn⟩ : ∃ n, E - (stack pre).length = n + 1 :=
        ⟨E - (stack pre).length - 1, by omega⟩
      rw [hn, List.take_succ_cons]
      exact Or.inr List.mem_cons_self
  · exact iff_of_false (fun hm => ht (mem_stack.1 (List.mem_of_mem_take hm))) fun hr => ht hr.1

/-- A list with room for `E` tags holds the first `E` of the stack, after every access. -/
theorem access_stack (hE : 0 < E) (h : List τ) (t : τ) :
    access E ((stack h).take E) t = (stack (t :: h)).take E := by
  obtain ⟨k, rfl⟩ : ∃ k, E = k + 1 := ⟨E - 1, by omega⟩
  rw [stack, List.take_succ_cons]
  by_cases ht : t ∈ (stack h).take (k + 1)
  · rw [access, outcome_of_mem ht]
    exact congrArg (t :: ·) (erase_take ht)
  · by_cases hl : (stack h).length < k + 1
    · -- there is room for the whole stack, which does not hold the tag
      rw [List.take_of_length_le (Nat.le_of_lt hl)] at ht ⊢
      rw [access, outcome_of_lt ht hl, List.erase_of_not_mem ht,
        List.take_of_length_le (Nat.le_of_lt_succ hl)]
    · have hfull : ((stack h).take (k + 1)).length = k + 1 := by
        rw [List.length_take]
        omega
      have hfront : t ∉ (stack h).take k := fun hm =>
        ht ((List.take_prefix_take_left (Nat.le_succ k)).subset hm)
      rw [access, outcome_of_le ht (by omega), List.dropLast_eq_take, hfull, List.take_take,
        Nat.add_sub_cancel, Nat.min_eq_left (Nat.le_succ k), take_erase hfront]

/-- A hit, read off the history. -/
theorem outcome_stack_eq_hit : outcome E ((stack h).take E) t = .hit ↔ Reused E h t := by
  rw [← mem_take_stack, outcome]
  split_ifs with ht <;> simp [ht]

/-- An eviction, read off the history. -/
theorem outcome_stack_eq_evict :
    outcome E ((stack h).take E) t = .evict ↔ ¬Reused E h t ∧ E ≤ h.dedup.length := by
  rw [← mem_take_stack, ← length_stack, outcome, List.length_take]
  split_ifs with ht hl
  · simp [ht]
  · simp only [ht, not_false_eq_true, true_and, false_iff]
    omega
  · simp only [ht, not_false_eq_true, true_and, true_iff]
    omega

/-! ## Renaming -/

omit [DecidableEq τ] [DecidableEq υ] in
theorem mem_map_iff_of_injOn {f : τ → υ} (hf : ∀ x ∈ l, f x = f t → x = t) :
    f t ∈ l.map f ↔ t ∈ l := by
  refine ⟨fun hm => ?_, List.mem_map_of_mem⟩
  obtain ⟨x, hx, he⟩ := List.mem_map.1 hm
  exact hf x hx he ▸ hx

theorem map_erase_of_injOn {f : τ → υ} (hf : ∀ x ∈ l, f x = f t → x = t) :
    (l.erase t).map f = (l.map f).erase (f t) := by
  induction l with
  | nil => rfl
  | cons x l ih =>
    by_cases hx : x = t
    · rw [hx, List.erase_cons_head, List.map_cons, List.erase_cons_head]
    · have hne : f x ≠ f t := fun he => hx (hf x List.mem_cons_self he)
      rw [List.erase_cons_tail (by simpa using hx), List.map_cons, List.map_cons,
        List.erase_cons_tail (by simpa using hne), ih fun y hy => hf y (List.mem_cons_of_mem x hy)]

/-- The outcome with renamed tags. -/
theorem outcome_map {f : τ → υ} (hf : ∀ x ∈ l, f x = f t → x = t) :
    outcome E (l.map f) (f t) = outcome E l t := by
  simp only [outcome, mem_map_iff_of_injOn hf, List.length_map]

/-- The access with renamed tags. -/
theorem access_map {f : τ → υ} (hf : ∀ x ∈ l, f x = f t → x = t) :
    access E (l.map f) (f t) = (access E l t).map f := by
  rw [access, access, outcome_map hf]
  cases outcome E l t with
  | hit => exact congrArg (f t :: ·) (map_erase_of_injOn hf).symm
  | miss => rfl
  | evict => exact congrArg (f t :: ·) List.map_dropLast.symm

end Recency
