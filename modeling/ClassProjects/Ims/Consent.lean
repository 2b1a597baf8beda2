import ClassProjects.Ims.PairAutomaton
import ClassProjects.Ims.Delivery
import ClassProjects.Ims.Notification
import Mathlib.Data.List.DropRight

/-!
# Consent

What the automaton of a pair accepts. A removal forgets everything, and the requests behind
the last one are remembered for each of the two users (`foldl_step`), so two users are friends
exactly if each has asked the other since the last removal.

For the server this says where instant messages come from. In every run from a database
without friendships, a message goes out exactly when its sender and its recipient have both
asked, with no removal by either since, the recipient is active and the text is valid
(`im_iff_consent`).
-/

namespace ClassProjects

namespace Ims

/-! ## The operations that count -/

/-- Whether an operation removes. -/
def PairOp.isRemove : PairOp → Bool
  | .request _ => false
  | .remove _ => true

/-- The operations behind the last removal. -/
def sinceRemove (ops : List PairOp) : List PairOp :=
  ops.rtakeWhile fun op => !op.isRemove

/-- The relation of two users of whom the first, or the second, has asked. -/
def PairRel.ofAsked : Bool → Bool → PairRel
  | false, false => .none
  | true, false => .asked
  | false, true => .askedBack
  | true, true => .friends

namespace PairRel

variable {ops : List PairOp}

theorem ofAsked_eq_friends {p q : Bool} : ofAsked p q = .friends ↔ p = true ∧ q = true := by
  cases p <;> cases q <;> decide

theorem step_ofAsked (p q b : Bool) :
    (ofAsked p q).step (.request b) = ofAsked (p || b) (q || !b) := by
  cases p <;> cases q <;> cases b <;> rfl

theorem step_remove (r : PairRel) (b : Bool) : r.step (.remove b) = .none := by
  cases r <;> rfl

/-- From strangers on, the automaton remembers who has asked since the last removal. -/
theorem foldl_step (ops : List PairOp) : ops.foldl step .none =
    ofAsked (decide (.request true ∈ sinceRemove ops))
      (decide (.request false ∈ sinceRemove ops)) := by
  induction ops using List.reverseRecOn with
  | nil => rfl
  | append_singleton ops op ih =>
    rw [List.foldl_append, List.foldl_cons, List.foldl_nil, ih]
    cases op with
    | remove b =>
      have hnil : sinceRemove (ops ++ [.remove b]) = [] :=
        List.rtakeWhile_concat_neg _ _ _ (by simp [PairOp.isRemove])
      rw [hnil, step_remove]
      rfl
    | request b =>
      have hsnoc : sinceRemove (ops ++ [.request b]) = sinceRemove ops ++ [.request b] :=
        List.rtakeWhile_concat_pos _ _ _ (by simp [PairOp.isRemove])
      rw [hsnoc, step_ofAsked]
      cases b <;> simp

/-- Two users are friends exactly if each has asked since the last removal. -/
theorem foldl_eq_friends_iff :
    ops.foldl step .none = .friends ↔ ∀ p, .request p ∈ sinceRemove ops := by
  rw [foldl_step, ofAsked_eq_friends]
  simp [and_comm]

end PairRel

/-! ## The messages of a run -/

variable {lim : ImpLimits} {db db₁ db₂ : Db} {s r : DbUser} {a b n text : CStr} {c : ℕ}
  {evs : List Event} {ev : Event} {o out : List Sent}

/-- Nobody has a friend or a request. -/
def Db.Strangers (db : Db) : Prop :=
  ∀ u ∈ db.users, u.flist = []

instance (db : Db) : Decidable db.Strangers :=
  inferInstanceAs (Decidable (∀ u ∈ db.users, u.flist = []))

theorem Db.Strangers.pairRel (h : db.Strangers) (a b : CStr) : db.pairRel a b = .none := by
  have hrel : db.rel a b = none := by
    cases hu : db.findUser a with
    | none => exact Db.rel_of_findUser_eq_none hu
    | some u => simp [Db.rel, hu, h u (Db.mem_of_findUser hu), statusOf, KeyedList.lookup]
  simp [Db.pairRel, hrel]

theorem Db.pairRel_eq_friends : db.pairRel a b = .friends ↔ db.rel a b = some .yes := by
  unfold Db.pairRel
  cases db.rel a b with
  | none => simp
  | some st => cases st <;> simp

/-- What two users have asked of each other makes them friends. -/
theorem rel_of_run (h : db.Rep) (h₀ : db.Strangers) (hab : a ≠ b)
    (hr : Machine.run (step lim) db evs = some (db₁, o)) :
    db₁.rel a b = some .yes ↔ ∀ p, .request p ∈ sinceRemove (pairTrace lim a b db evs) := by
  rw [← Db.pairRel_eq_friends, pairRel_of_run h hab hr, h₀.pairRel, PairRel.foldl_eq_friends_iff]

/-- Only an `IM` sends an instant message, and only if it is delivered. -/
theorem im_of_effect {fd : ℤ} (h : Effect lim db ev db₁ out) (hm : ⟨fd, .op (.im a text)⟩ ∈ out) :
    ∃ c s r, ev = .msg c (some (.op (.im r.name text))) ∧ db.findConn c = some s ∧ s.name = a ∧
      db.findUser r.name = some r ∧ r.connfd = fd ∧ db.rel s.name r.name = some .yes ∧
      r.active = .yes ∧ validIM lim text = true := by
  have hboth : ∀ {d : ℕ} {u : DbUser} {m₁ m₂ : ImpMsg},
      ⟨fd, .op (.im a text)⟩ ∈ tellBoth d u m₁ m₂ → m₁ = .op (.im a text) ∨ m₂ = .op (.im a text) :=
    fun hmem => (mem_tellBoth hmem).imp (fun heq => (Sent.mk.inj heq).2.symm)
      fun heq => (Sent.mk.inj heq).2.symm
  cases h with
  | rejected => simp at hm
  | ignored => simp at hm
  | registered => simp at hm
  | loggedIn => simp [ownStatus, Db.viewMsg] at hm
  | loggedOut => simp at hm
  | asked => rcases hboth hm with heq | heq <;> cases heq
  | befriended => rcases hboth hm with heq | heq <;> cases heq
  | parted => rcases hboth hm with heq | heq <;> cases heq
  | listed => simp [ownStatus, Db.viewMsg] at hm
  | @delivered c s r text' hs hr hst ha hv =>
    obtain ⟨hfd, hn, ht⟩ : fd = r.connfd ∧ a = s.name ∧ text = text' := by simpa using hm
    subst hn ht
    exact ⟨c, s, r, rfl, hs, rfl, hr, hfd.symm, hst, ha, hv⟩

/-- In every run from a database without friendships, the instant messages that go out are
those to an active user, with a valid text, between users each of whom has asked the other
since the last removal between them. -/
theorem im_iff_consent (h : db.Rep) (h₀ : db.Strangers)
    (hr : Machine.run (step lim) db evs = some (db₁, o)) (hs : step lim db₁ ev = some (db₂, out))
    (fd : ℤ) (a text : CStr) :
    ⟨fd, .op (.im a text)⟩ ∈ out ↔
      ∃ c s r, ev = .msg c (some (.op (.im r.name text))) ∧ db₁.findConn c = some s ∧
        s.name = a ∧ db₁.findUser r.name = some r ∧ r.connfd = fd ∧ s.name ≠ r.name ∧
        (∀ p, .request p ∈ sinceRemove (pairTrace lim s.name r.name db evs)) ∧
        r.active = .yes ∧ ValidText lim text := by
  have hrep : db₁.Rep := Machine.run_invariant (fun _ _ _ _ h hs => rep_step h hs) h hr
  constructor
  · intro hm
    obtain ⟨c, s, r, rfl, hc, rfl, hu, hfd, hst, ha, hv⟩ := im_of_effect (effect_of_step hrep hs) hm
    have hne : s.name ≠ r.name := by
      intro heq
      rw [heq, hrep.rel_self] at hst
      cases hst
    exact ⟨c, s, r, rfl, hc, rfl, hu, hfd, hne, (rel_of_run h h₀ hne hr).1 hst, ha,
      validIM_iff.1 hv⟩
  · rintro ⟨c, s, r, rfl, hc, rfl, hu, rfl, hne, hask, ha, ht⟩
    have hst := (rel_of_run h h₀ hne hr).2 hask
    obtain ⟨out', hs', hd, -⟩ := imUser_sent hrep lim text hc hu
    obtain ⟨-, rfl⟩ := Prod.mk.inj (Option.some.inj (hs.symm.trans hs'))
    rw [hd ((deliverable_iff hrep lim text hc hu).2 ⟨hst, ha, validIM_iff.2 ht⟩)]
    exact List.mem_cons_self

/-- Alice and bob, who are strangers, become friends, bob ends it, and both ask again. -/
def reunion : List Event :=
  [.msg 4 (some (.op (.friendRequest "bob".toList))),
    .msg 5 (some (.op (.friendRequest "alice".toList))),
    .msg 5 (some (.op (.friendRemove "alice".toList))),
    .msg 5 (some (.op (.friendRequest "alice".toList))),
    .msg 4 (some (.op (.friendRequest "bob".toList)))]

/-- Alice and bob are friends. -/
def Db.pair : Db :=
  Db.duo [⟨some "bob".toList, .yes, yes_ne⟩] [⟨some "alice".toList, .yes, yes_ne⟩]

theorem im_iff_consent_reunion : ∃ o out,
    Machine.run (step impLimits) (Db.duo [] []) reunion = some (Db.pair, o) ∧
      step impLimits Db.pair (.msg 4 (some (.op (.im "bob".toList "hi".toList)))) =
        some (Db.pair, out) ∧ ⟨5, .op (.im "alice".toList "hi".toList)⟩ ∈ out := by
  refine ⟨_, _, rfl, rfl, ?_⟩
  refine (@im_iff_consent impLimits (Db.duo [] []) Db.pair Db.pair reunion
    (.msg 4 (some (.op (.im "bob".toList "hi".toList)))) _ _ (by decide) (by decide) rfl rfl 5
    "alice".toList "hi".toList).2 ?_
  exact ⟨4, ⟨"alice".toList, .yes, 4, [⟨some "bob".toList, .yes, yes_ne⟩]⟩,
    ⟨"bob".toList, .yes, 5, [⟨some "alice".toList, .yes, yes_ne⟩]⟩, rfl, rfl, rfl, rfl, rfl,
    by decide, by decide, rfl, by decide⟩

end Ims

end ClassProjects
