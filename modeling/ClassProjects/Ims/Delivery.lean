import ClassProjects.Ims.HandlerSpec

/-!
# Delivery of instant messages

`imUser` looks only at the sender's list. With the lists mirrored that is enough : the
recipient has agreed as well (`Deliverable.back`), so a message goes out exactly when the
two are friends, the recipient is active and the text is valid (`im_delivery`). Otherwise
the sender's connection gets one error and nobody else anything.

The sender is the first user in list order that the connection is bound to. A connection
may be bound to a second user, who then cannot send (`im_second_user`).
-/

namespace ClassProjects

namespace Ims

variable {lim : ImpLimits} {db : Db} {s r : DbUser} {n text : CStr} {c : ℕ}

/-- One character at least and the limit at most, all of them printing, which no control
character is. -/
def ValidText (lim : ImpLimits) (text : CStr) : Prop :=
  (1 ≤ text.length ∧ text.length ≤ lim.imMaxlen) ∧ ∀ ch ∈ text, isprint ch = true

instance : Decidable (ValidText lim text) :=
  decidable_of_iff ((1 ≤ text.length ∧ text.length ≤ lim.imMaxlen) ∧ text.all isprint = true)
    (and_congr_right fun _ => List.all_eq_true)

/-- No white space but the blank is printing, so the test for it rejects nothing more. -/
theorem validIM_iff : validIM lim text = true ↔ ValidText lim text := by
  have hchar : ∀ ch, ((isspace ch && decide (ch ≠ ' ')) || !isprint ch) = !isprint ch := by
    intro ch
    simp only [isspace, isprint]
    grind
  unfold validIM ValidText
  simp only [hchar]
  by_cases hlen : 1 ≤ text.length ∧ text.length ≤ lim.imMaxlen <;> simp [hlen]

/-- The recipient `r` can be sent `text` by `s`. -/
structure Deliverable (lim : ImpLimits) (db : Db) (s r : DbUser) (text : CStr) : Prop where
  lists : statusOf s.flist r.name = some .yes
  back : statusOf r.flist s.name = some .yes
  active : r.active = .yes
  text : ValidText lim text

instance : Decidable (Deliverable lim db s r text) :=
  decidable_of_iff
    (statusOf s.flist r.name = some .yes ∧ statusOf r.flist s.name = some .yes ∧
      r.active = .yes ∧ ValidText lim text)
    ⟨fun ⟨h₁, h₂, h₃, h₄⟩ => ⟨h₁, h₂, h₃, h₄⟩, fun h => ⟨h.lists, h.back, h.active, h.text⟩⟩

/-- What `imUser` checks is that the message can be delivered. -/
theorem deliverable_iff (h : db.Rep) (lim : ImpLimits) (text : CStr)
    (hs : db.findConn c = some s) (hr : db.findUser n = some r) :
    Deliverable lim db s r text ↔
      db.rel s.name n = some .yes ∧ r.active = .yes ∧ validIM lim text = true := by
  have hsm := Db.mem_of_findConn hs
  have hrm := Db.mem_of_findUser hr
  obtain rfl := Db.name_of_findUser hr
  rw [h.rel_eq hsm, validIM_iff]
  constructor
  · exact fun hd => ⟨hd.lists, hd.active, hd.text⟩
  · rintro ⟨hst, ha, ht⟩
    exact ⟨hst, (h.mirror_yes s hsm r hrm).1 hst, ha, ht⟩

/-- `imUser` delivers a message that can be delivered, and sends an error otherwise. -/
theorem imUser_sent (h : db.Rep) (lim : ImpLimits) (text : CStr) (hs : db.findConn c = some s)
    (hr : db.findUser n = some r) :
    ∃ out, step lim db (.msg c (some (.op (.im n text)))) = some (db, out) ∧
      (Deliverable lim db s r text →
        out = [⟨r.connfd, .op (.im s.name text)⟩, ⟨c, .ack .im (some r.name)⟩]) ∧
      (¬Deliverable lim db s r text → ∃ et name, out = [⟨c, .error et name⟩]) := by
  have heq := imUser_eq h lim text hs hr
  have hiff := deliverable_iff h lim text hs hr
  obtain rfl := Db.name_of_findUser hr
  simp only [step, handleMsg, handleOp, heq, hiff, Option.map_some]
  split_ifs with h₁ h₂ h₃
  · exact ⟨_, rfl, fun hd => absurd hd.1 h₁, fun _ => ⟨_, _, rfl⟩⟩
  · exact ⟨_, rfl, fun hd => by simp [h₂] at hd, fun _ => ⟨_, _, rfl⟩⟩
  · exact ⟨_, rfl, fun hd => by simp [h₃] at hd, fun _ => ⟨_, _, rfl⟩⟩
  · refine ⟨_, rfl, fun _ => rfl, fun hd => absurd ⟨?_, ?_, ?_⟩ hd⟩
    · simpa using h₁
    · cases ha : r.active with
      | not => exact absurd ha h₂
      | yes => rfl
    · simpa using h₃

/-- An IM that names no user, or comes from a connection that is bound to none, is
answered with an error. -/
theorem imUser_unknown (lim : ImpLimits) (text : CStr)
    (hn : db.findConn c = none ∨ db.findUser n = none) :
    ∃ et name, step lim db (.msg c (some (.op (.im n text)))) =
      some (db, [⟨c, .error et name⟩]) := by
  cases hs : db.findConn c with
  | none =>
    exact ⟨.clientNotBound, none, by simp [step, handleMsg, handleOp, imUser, hs, answerError]⟩
  | some s =>
    have hr : db.findUser n = none := by simpa [hs] using hn
    exact ⟨.userDoesNotExist, none,
      by simp [step, handleMsg, handleOp, imUser, hs, hr, answerError]⟩

/-- A message goes out exactly when the first user bound to the connection and the named
user list each other as friends, the named one is active and the text is valid. Then it
goes to the named user's connection unchanged, under the sender's name, and is
acknowledged. Otherwise the connection gets one error. The database stays as it is. -/
theorem im_delivery (h : db.Rep) (lim : ImpLimits) (c : ℕ) (n text : CStr) :
    ∃ out, step lim db (.msg c (some (.op (.im n text)))) = some (db, out) ∧
      ((∃ m ∈ out, ∃ name t, m.msg = .op (.im name t)) ↔
        ∃ s r, db.findConn c = some s ∧ db.findUser n = some r ∧ Deliverable lim db s r text) ∧
      (∀ s r, db.findConn c = some s → db.findUser n = some r → Deliverable lim db s r text →
        out = [⟨r.connfd, .op (.im s.name text)⟩, ⟨c, .ack .im (some r.name)⟩]) ∧
      ((¬∃ s r, db.findConn c = some s ∧ db.findUser n = some r ∧ Deliverable lim db s r text) →
        ∃ et name, out = [⟨c, .error et name⟩]) := by
  by_cases hn : db.findConn c = none ∨ db.findUser n = none
  · obtain ⟨et, name, hstep⟩ := imUser_unknown lim text hn
    have hno : ¬∃ s r, db.findConn c = some s ∧ db.findUser n = some r ∧
        Deliverable lim db s r text := by
      rintro ⟨s, r, hs, hr, -⟩
      simp [hs, hr] at hn
    exact ⟨_, hstep, iff_of_false (by simp) hno,
      fun s r hs hr hd => absurd ⟨s, r, hs, hr, hd⟩ hno, fun _ => ⟨_, _, rfl⟩⟩
  · obtain ⟨hc, hu⟩ := not_or.1 hn
    obtain ⟨s, hs⟩ := Option.ne_none_iff_exists'.1 hc
    obtain ⟨r, hr⟩ := Option.ne_none_iff_exists'.1 hu
    obtain ⟨out, hstep, hyes, hno⟩ := imUser_sent h lim text hs hr
    simp only [hs, hr, Option.some.injEq, exists_and_left, exists_eq_left']
    refine ⟨out, hstep, ⟨fun ⟨m, hm, name, t, hmsg⟩ => ?_, fun hd => ?_⟩, ?_, hno⟩
    · by_contra hd
      obtain ⟨et, name', rfl⟩ := hno hd
      rw [List.mem_singleton.1 hm] at hmsg
      cases hmsg
    · rw [hyes hd]
      exact ⟨_, List.mem_cons_self, _, _, rfl⟩
    · rintro _ _ rfl rfl hd
      exact hyes hd

/-- Alice and bob are both bound to the connection 4, and carol, on 5, is bob's friend. -/
def Db.trio : Db :=
  ⟨[⟨"alice".toList, .yes, 4, []⟩,
    ⟨"bob".toList, .yes, 4, [⟨some "carol".toList, .yes, yes_ne⟩]⟩,
    ⟨"carol".toList, .yes, 5, [⟨some "bob".toList, .yes, yes_ne⟩]⟩], 3⟩

/-- Carol is sent a message from her own connection. -/
theorem im_delivery_carol :
    step impLimits Db.trio (.msg 5 (some (.op (.im "bob".toList "hi".toList)))) =
      some (Db.trio, [⟨4, .op (.im "carol".toList "hi".toList)⟩,
        ⟨5, .ack .im (some "bob".toList)⟩]) := by
  obtain ⟨out, hstep, -, hd, -⟩ :=
    @im_delivery Db.trio (by decide) impLimits 5 "bob".toList "hi".toList
  rw [hstep, hd _ _ rfl rfl (by decide)]
  rfl

/-- It is not enough that the connection is bound to some friend of the recipient. -/
theorem im_second_user : ¬∀ db : Db, db.Rep → ∀ (c : ℕ) (n text : CStr),
    ∃ out, step impLimits db (.msg c (some (.op (.im n text)))) = some (db, out) ∧
      ((∃ m ∈ out, ∃ name t, m.msg = .op (.im name t)) ↔
        ∃ s ∈ db.users, ∃ r ∈ db.users, s.connfd = c ∧ r.name = n ∧
          Deliverable impLimits db s r text) := by
  intro h
  obtain ⟨out, hstep, hiff⟩ := h Db.trio (by decide) 4 "carol".toList "hi".toList
  have hout : out = [⟨4, .error .notFriend (some "carol".toList)⟩] := by
    have hrun : step impLimits Db.trio (.msg 4 (some (.op (.im "carol".toList "hi".toList)))) =
        some (Db.trio, [⟨4, .error .notFriend (some "carol".toList)⟩]) := by decide
    rw [hrun] at hstep
    exact (Prod.mk.inj (Option.some.inj hstep)).2.symm
  have hsent := hiff.2 (by decide)
  simp [hout] at hsent

end Ims

end ClassProjects
