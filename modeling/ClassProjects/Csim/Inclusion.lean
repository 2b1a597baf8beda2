import ClassProjects.Csim.Lru
import ClassProjects.Lib.Machine

/-!
# A larger set holds what a smaller one holds

The same calls of `memory_op` on a set of `E` lines and on one of `E + 1`. Both are recency
lists, and the smaller one is always the beginning of the larger one (`Included`), although
their lines sit at different indices and have different counters. So the larger set meets
a hit wherever the smaller one does, and has no more misses and no more evictions
(`lru_inclusion`).
-/

namespace ClassProjects

namespace Csim

open Recency

/-! ## Calls and what they count -/

/-- `memory_op` with its result code as the output. -/
def callStep (max : ℕ∞) (lines : List Line) (call : UInt64 × Op) : Option (List Line × List ℕ) :=
  (memoryOp max lines call.1 call.2).map fun r => (r.2, [r.1])

/-- The misses of a list of result codes. -/
def missesOf : List ℕ → ℕ
  | [] => 0
  | r :: codes => (tally r).2.1 + missesOf codes

/-- The evictions of a list of result codes. -/
def evictionsOf : List ℕ → ℕ
  | [] => 0
  | r :: codes => (tally r).2.2 + evictionsOf codes

/-- The tags of the valid lines. -/
def validTags (lines : List Line) : List UInt64 :=
  (lines.filter Line.valid).map Line.tag

variable {E n : ℕ} {small large : List Line} {tags : List UInt64}

theorem tally_resultCode (op : Op) (o : Outcome) :
    (tally (resultCode op o)).2.1 = (if o = .hit then 0 else 1) ∧
      (tally (resultCode op o)).2.2 = if o = .evict then 1 else 0 := by
  cases op <;> cases o <;> decide

/-! ## The two sets -/

/-- Two sets whose recency lists are `tags` and its first `E` tags. -/
structure Included (E n : ℕ) (small large : List Line) (tags : List UInt64) : Prop where
  ordered_small : Ordered small (tags.take E)
  ordered_large : Ordered large tags
  length_small : small.length = E
  length_large : large.length = E + 1
  usage_small : ∀ l ∈ small, l.usage ≤ n
  usage_large : ∀ l ∈ large, l.usage ≤ n

theorem included_create (E : ℕ) : Included E 0 (setCreate E) (setCreate (E + 1)) [] where
  ordered_small := by simpa using ordered_create E
  ordered_large := ordered_create (E + 1)
  length_small := List.length_replicate
  length_large := List.length_replicate
  usage_small := usage_create E
  usage_large := usage_create (E + 1)

/-- The smaller set's tags are in the larger one. -/
theorem Included.validTags (h : Included E n small large tags) :
    ∀ t ∈ validTags small, t ∈ validTags large := by
  have hmem : ∀ (lines : List Line) (tags : List UInt64) (t : UInt64), Ordered lines tags →
      (t ∈ Csim.validTags lines ↔ t ∈ tags) := by
    intro lines tags t ho
    rw [ho.mem_tags, Csim.validTags]
    simp only [List.mem_map, List.mem_filter, and_assoc]
  intro t ht
  rw [hmem _ _ _ h.ordered_large]
  exact List.mem_of_mem_take ((hmem _ _ _ h.ordered_small).1 ht)

/-- A call on both sets : the smaller one has a miss or an eviction if the larger one has. -/
theorem Included.step (hE : 2 ≤ E) (h : Included E n small large tags) (call : UInt64 × Op) :
    ∃ small' r large' r', callStep ⊤ small call = some (small', [r]) ∧
      callStep ⊤ large call = some (large', [r']) ∧
      (tally r').2.1 ≤ (tally r).2.1 ∧ (tally r').2.2 ≤ (tally r).2.2 ∧
      Included E (n + 1) small' large' (access (E + 1) tags call.1) := by
  obtain ⟨tag, op⟩ := call
  have hlen := h.length_small
  have hlen' := h.length_large
  have hmax : ((n + 1 : ℕ) : ℕ∞) ≤ ⊤ := le_top
  obtain ⟨small', hs, hso, hsl, hsu⟩ := memoryOp_eq tag op h.ordered_small (by omega)
    h.usage_small hmax
  obtain ⟨large', hl, hlo, hll, hlu⟩ := memoryOp_eq tag op h.ordered_large (by omega)
    h.usage_large hmax
  have hinv : Invariant (E + 1) tags := ⟨h.ordered_large.nodup, hlen' ▸ h.ordered_large.length_le⟩
  rw [hlen] at hs hso
  rw [hlen'] at hl hlo
  rw [access_take (by omega) hinv] at hso
  obtain ⟨hhit, hevict⟩ := outcome_take hinv tag
  obtain ⟨hmiss, hev⟩ := tally_resultCode op (outcome E (tags.take E) tag)
  obtain ⟨hmiss', hev'⟩ := tally_resultCode op (outcome (E + 1) tags tag)
  refine ⟨small', _, large', _, by rw [callStep, hs]; rfl, by rw [callStep, hl]; rfl, ?_, ?_,
    ⟨hso, hlo, by omega, by omega, hsu, hlu⟩⟩
  · rw [hmiss, hmiss']
    by_cases ho : outcome E (tags.take E) tag = .hit
    · rw [if_pos (hhit ho)]
      exact Nat.zero_le _
    · rw [if_neg ho]
      split_ifs <;> omega
  · rw [hev, hev']
    by_cases ho : outcome (E + 1) tags tag = .evict
    · rw [if_pos ho, if_pos (hevict ho)]
    · rw [if_neg ho]
      exact Nat.zero_le _

theorem Included.run (hE : 2 ≤ E) (h : Included E n small large tags)
    (calls : List (UInt64 × Op)) :
    ∃ small' codes large' codes' n' tags', Machine.run (callStep ⊤) small calls =
        some (small', codes) ∧
      Machine.run (callStep ⊤) large calls = some (large', codes') ∧
      missesOf codes' ≤ missesOf codes ∧ evictionsOf codes' ≤ evictionsOf codes ∧
      Included E n' small' large' tags' := by
  induction calls generalizing n small large tags with
  | nil => exact ⟨small, [], large, [], n, tags, rfl, rfl, le_refl _, le_refl _, h⟩
  | cons call calls ih =>
    obtain ⟨s₁, r, l₁, r', hs, hl, hmiss, hev, h₁⟩ := h.step hE call
    obtain ⟨s₂, codes, l₂, codes', n', tags', hs₂, hl₂, hmiss₂, hev₂, h₂⟩ := ih h₁
    refine ⟨s₂, r :: codes, l₂, r' :: codes', n', tags',
      Machine.run_cons_eq_some.2 ⟨s₁, [r], codes, hs, hs₂, rfl⟩,
      Machine.run_cons_eq_some.2 ⟨l₁, [r'], codes', hl, hl₂, rfl⟩, ?_, ?_, h₂⟩
    · simp only [missesOf]
      omega
    · simp only [evictionsOf]
      omega

/-- The same calls on a new set of `E` lines and on one of `E + 1`, with unbounded counters :
the valid tags of the smaller set are valid in the larger one, which has no more misses and
no more evictions. -/
theorem lru_inclusion (hE : 2 ≤ E) (calls : List (UInt64 × Op)) :
    ∃ small codes large codes', Machine.run (callStep ⊤) (setCreate E) calls =
        some (small, codes) ∧
      Machine.run (callStep ⊤) (setCreate (E + 1)) calls = some (large, codes') ∧
      (∀ t ∈ validTags small, t ∈ validTags large) ∧ missesOf codes' ≤ missesOf codes ∧
      evictionsOf codes' ≤ evictionsOf codes := by
  obtain ⟨small, codes, large, codes', n, tags, hs, hl, hmiss, hev, h⟩ :=
    (included_create E).run hE calls
  exact ⟨small, codes, large, codes', hs, hl, h.validTags, hmiss, hev⟩

theorem lru_inclusion_two : ∃ small codes large codes',
    Machine.run (callStep ⊤) (setCreate 2) [(1, .L), (2, .L), (3, .M), (1, .S), (4, .L)] =
      some (small, codes) ∧
    Machine.run (callStep ⊤) (setCreate 3) [(1, .L), (2, .L), (3, .M), (1, .S), (4, .L)] =
      some (large, codes') ∧
    (∀ t ∈ validTags small, t ∈ validTags large) ∧ missesOf codes' ≤ missesOf codes ∧
    evictionsOf codes' ≤ evictionsOf codes :=
  lru_inclusion (by decide) _

end Csim

end ClassProjects
