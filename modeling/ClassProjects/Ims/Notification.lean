import ClassProjects.Ims.HandlerSpec

/-!
# Status notifications

How a user sees another one is `Db.view` : the friend status, and the other's activity
if they are friends. A step notifies (`Notified`) if it tells every user who stays active
about every view of his that changed, sends no `STATUS` that is not the new view of a user
bound to the connection it goes to, and lists the friends of a user who logs in.

The notifier of a login or logout walks the list of the user whose activity changed. That
this reaches everyone who sees him is the symmetry of the lists (`Db.Rep.rel_yes`). The
friend operations change two views, one of each user of the pair (`notified_setPair`).
-/

namespace ClassProjects

namespace Ims

variable {lim : ImpLimits} {db db' : Db} {u v v' s r : DbUser} {n m w : CStr} {c : ℕ}
  {out : List Sent}

/-! ## Views -/

/-- A view, from what the list says and the other's activity. -/
def seen (st : Option ImpFriend) (active : ImpActive) : ImpFriend × ImpActive :=
  match st with
  | none => (.not, .not)
  | some .yes => (.yes, active)
  | some st => (st, .not)

theorem Db.view_eq : db.view n w = seen (db.rel n w) (db.activeOf w) :=
  rfl

theorem seen_of_ne_yes {st : Option ImpFriend} (h : st ≠ some .yes) (a a' : ImpActive) :
    seen st a = seen st a' := by
  unfold seen
  split <;> first | rfl | exact absurd rfl h

theorem Db.activeOf_append (hn : db.findUser n = none) :
    (db.append n).activeOf w = db.activeOf w := by
  rw [Db.activeOf, Db.activeOf, Db.findUser_append hn]
  split_ifs with hw
  · simp [hw, hn, dbUserInit]
  · rfl

theorem Db.view_append (hn : db.findUser n = none) : (db.append n).view m w = db.view m w := by
  rw [Db.view_eq, Db.view_eq, Db.rel_append hn, Db.activeOf_append hn]

theorem Db.activeOf_rebind {a : ImpActive} {fd : ℤ} (hu : db.findUser n = some u) :
    (db.rebind n a fd).activeOf w = if w = n then a else db.activeOf w := by
  rw [Db.activeOf, Db.activeOf, Db.findUser_rebind]
  split_ifs with hw
  · simp [hw, hu, DbUser.rebind]
  · simp

/-- A user's login or logout changes how his friends see him, and no other view. -/
theorem Db.view_rebind_ne {a : ImpActive} {fd : ℤ} (hu : db.findUser n = some u)
    (h : (db.rebind n a fd).view m w ≠ db.view m w) : w = n ∧ db.rel m n = some .yes := by
  rw [Db.view_eq, Db.view_eq, Db.rel_rebind, Db.activeOf_rebind hu] at h
  by_cases hw : w = n
  · subst hw
    refine ⟨rfl, ?_⟩
    by_contra hne
    exact h (seen_of_ne_yes hne _ _)
  · rw [if_neg hw] at h
    exact absurd rfl h

theorem Db.view_rebind_self {a : ImpActive} {fd : ℤ} (hu : db.findUser n = some u)
    (h : db.rel m n = some .yes) : (db.rebind n a fd).view m n = (.yes, a) := by
  rw [Db.view_eq, Db.rel_rebind, Db.activeOf_rebind hu, h, if_pos rfl]
  rfl

theorem Db.activeOf_relist (g : DbUser → List DbFriend) :
    (db.relist g).activeOf w = db.activeOf w := by
  simp [Db.activeOf, Db.findUser_relist, Function.comp_def]

/-! ## What a step owes -/

/-- The messages of a step from `db` to `db'` notify its users. -/
structure Notified (db db' : Db) (out : List Sent) : Prop where
  /-- A user who stays active is told about each view of his that changed. -/
  complete : ∀ v ∈ db.users, ∀ v' ∈ db'.users, v'.name = v.name → v.active = .yes →
    v'.active = .yes → ∀ w, db'.view v.name w ≠ db.view v.name w →
    v'.connfd = v.connfd ∧ ⟨v.connfd, db'.viewMsg v.name w⟩ ∈ out
  /-- A `STATUS` is the new view of some user bound to the connection it goes to. -/
  sound : ∀ m ∈ out, ∀ w st a, m.msg = .status w st a →
    ∃ v ∈ db'.users, v.connfd = m.connfd ∧ db'.view v.name w = (st, a)
  /-- A user who logs in gets one `STATUS` for each entry of his list, in list order,
  before the messages that tell others about him. -/
  own : ∀ v ∈ db.users, ∀ v' ∈ db'.users, v'.name = v.name → v.active = .not →
    v'.active = .yes → ∃ others,
    out = ⟨v'.connfd, .ack .login (some v.name)⟩ ::
      v.flist.map (fun e => ⟨v'.connfd, db'.viewMsg v.name (e.friend.getD [])⟩) ++ others ∧
    ∀ m ∈ others, m.msg = .status v.name .yes .yes

/-- A step that leaves the database alone owes nothing but true messages. -/
theorem notified_same (h : db.Rep)
    (hout : ∀ m ∈ out, ∀ w st a, m.msg = .status w st a →
      ∃ v ∈ db.users, v.connfd = m.connfd ∧ db.view v.name w = (st, a)) : Notified db db out where
  complete _ _ _ _ _ _ _ w hw := absurd rfl hw
  sound := hout
  own v hv v' hv' hn ha ha' := by
    obtain rfl := List.inj_on_of_nodup_map h.names hv' hv hn
    simp [ha] at ha'

/-- The user of the old database behind one of the new database. -/
theorem Db.Rep.eq_of_mem_rebind (h : db.Rep) {a : ImpActive} {fd : ℤ} (hv : v ∈ db.users)
    (hv' : v' ∈ (db.rebind n a fd).users) (hn : v'.name = v.name) :
    v' = if v.name = n then v.rebind a fd else v := by
  obtain ⟨x, hx, rfl⟩ := Db.mem_rebind.1 hv'
  have hname : x.name = v.name := by
    rw [← hn]
    split_ifs <;> rfl
  rw [List.inj_on_of_nodup_map h.names hx hv hname]

theorem Db.Rep.eq_of_mem_relist (h : db.Rep) {g : DbUser → List DbFriend} (hv : v ∈ db.users)
    (hv' : v' ∈ (db.relist g).users) (hn : v'.name = v.name) : v' = { v with flist := g v } := by
  obtain ⟨x, hx, rfl⟩ := List.mem_map.1 hv'
  rw [List.inj_on_of_nodup_map h.names hx hv hn]

/-! ## Registration, login and logout -/

theorem notified_append (h : db.Rep) (hn : db.findUser n = none) :
    Notified db (db.append n) [⟨c, .ack .register (some n)⟩] where
  complete v _ v' _ _ _ _ w hw := absurd (Db.view_append hn) hw
  sound m hm w st a hs := by
    rw [List.mem_singleton.1 hm] at hs
    cases hs
  own v hv v' hv' hname ha ha' := by
    rcases List.mem_append.1 hv' with hv' | hv'
    · obtain rfl := List.inj_on_of_nodup_map h.names hv' hv hname
      simp [ha] at ha'
    · rw [List.mem_singleton.1 hv'] at ha'
      cases ha'

/-- The friends of a user whose activity changes are those who are told. -/
theorem notified_friends (a : ImpActive) (fd : ℤ) (h : db.Rep) (hu : u ∈ db.users)
    (hfd : a = .yes ↔ fd ≠ -1) :
    (∀ v ∈ db.users, ∀ v' ∈ (db.rebind u.name a fd).users, v'.name = v.name →
      v'.active = .yes → ∀ w, (db.rebind u.name a fd).view v.name w ≠ db.view v.name w →
      v'.connfd = v.connfd ∧ ⟨v.connfd, (db.rebind u.name a fd).viewMsg v.name w⟩ ∈
        (activeFriends (db.rebind u.name a fd) u.flist).map
          fun f => (⟨f.connfd, .status u.name .yes a⟩ : Sent)) ∧
    ∀ m ∈ (activeFriends (db.rebind u.name a fd) u.flist).map
        fun f => (⟨f.connfd, .status u.name .yes a⟩ : Sent),
      m.msg = .status u.name .yes a ∧ ∃ v ∈ (db.rebind u.name a fd).users,
        v.connfd = m.connfd ∧ (db.rebind u.name a fd).view v.name u.name = (.yes, a) := by
  have h' : (db.rebind u.name a fd).Rep := h.rebind hfd
  have hfind := h.findUser_of_mem hu
  have hu' : u.rebind a fd ∈ (db.rebind u.name a fd).users :=
    Db.mem_rebind.2 ⟨u, hu, by simp⟩
  have hmem : ∀ f, f ∈ activeFriends (db.rebind u.name a fd) u.flist ↔
      f ∈ (db.rebind u.name a fd).users ∧ f.active = .yes ∧ db.rel u.name f.name = some .yes := by
    intro f
    simpa using mem_activeFriends (v := f) h' hu'
  constructor
  · intro v hv v' hv' hn ha' w hw
    obtain ⟨rfl, hrel⟩ := Db.view_rebind_ne hfind hw
    have hne : v.name ≠ u.name := by
      intro heq
      rw [heq, h.rel_self] at hrel
      cases hrel
    have hvv := h.eq_of_mem_rebind hv hv' hn
    rw [if_neg hne] at hvv
    subst hvv
    refine ⟨rfl, List.mem_map.2 ⟨v', (hmem v').2 ⟨hv', ha', h.rel_yes.1 hrel⟩, ?_⟩⟩
    rw [Db.viewMsg, Db.view_rebind_self hfind hrel]
  · intro m hm
    obtain ⟨f, hf, rfl⟩ := List.mem_map.1 hm
    obtain ⟨hf, -, hrel⟩ := (hmem f).1 hf
    exact ⟨rfl, f, hf, rfl, Db.view_rebind_self hfind (h.rel_yes.1 hrel)⟩

theorem notified_login (h : db.Rep) (hu : db.findUser n = some u) (ha : u.active = .not) :
    Notified db (db.rebind n .yes c)
      (⟨c, .ack .login (some n)⟩ :: ownStatus (db.rebind n .yes c) c u ++
        (activeFriends (db.rebind n .yes c) u.flist).map
          fun f => ⟨f.connfd, .status n .yes .yes⟩) := by
  have hum := Db.mem_of_findUser hu
  obtain rfl := Db.name_of_findUser hu
  obtain ⟨hcomplete, hsound⟩ := notified_friends .yes c h hum (by simp)
  have hu' : u.rebind .yes c ∈ (db.rebind u.name .yes c).users :=
    Db.mem_rebind.2 ⟨u, hum, by simp⟩
  refine ⟨fun v hv v' hv' hn _ hv'a w hw => ?_, fun m hm w st a hs => ?_,
    fun v hv v' hv' hn hva hv'a => ?_⟩
  · obtain ⟨hc, hmsg⟩ := hcomplete v hv v' hv' hn hv'a w hw
    exact ⟨hc, List.mem_append_right _ hmsg⟩
  · rcases List.mem_append.1 hm with hm | hm
    · rcases List.mem_cons.1 hm with rfl | hm
      · cases hs
      · obtain ⟨e, -, rfl⟩ := List.mem_map.1 hm
        refine ⟨_, hu', rfl, ?_⟩
        obtain ⟨rfl, rfl, rfl⟩ := ImpMsg.status.inj hs
        rfl
    · obtain ⟨hmsg, v, hv, hc, hview⟩ := hsound m hm
      obtain ⟨rfl, rfl, rfl⟩ := ImpMsg.status.inj (hmsg.symm.trans hs)
      exact ⟨v, hv, hc, hview⟩
  · -- the user who became active is the one who logged in
    have hvv := h.eq_of_mem_rebind hv hv' hn
    split_ifs at hvv with hname
    · obtain rfl := List.inj_on_of_nodup_map h.names hv hum hname
      subst hvv
      exact ⟨_, rfl, fun m hm => (hsound m hm).1⟩
    · rw [hvv, hva] at hv'a
      cases hv'a

theorem notified_logout (h : db.Rep) (hu : u ∈ db.users) {fd : ℤ} :
    Notified db (db.rebind u.name .not (-1))
      (⟨fd, .ack .logout none⟩ :: (activeFriends (db.rebind u.name .not (-1)) u.flist).map
        fun f => ⟨f.connfd, .status u.name .yes .not⟩) := by
  obtain ⟨hcomplete, hsound⟩ := notified_friends .not (-1) h hu (by simp)
  refine ⟨fun v hv v' hv' hn _ hv'a w hw => ?_, fun m hm w st a hs => ?_,
    fun v hv v' hv' hn hva hv'a => ?_⟩
  · obtain ⟨hc, hmsg⟩ := hcomplete v hv v' hv' hn hv'a w hw
    exact ⟨hc, List.mem_cons_of_mem _ hmsg⟩
  · rcases List.mem_cons.1 hm with rfl | hm
    · cases hs
    · obtain ⟨hmsg, v, hv, hc, hview⟩ := hsound m hm
      obtain ⟨rfl, rfl, rfl⟩ := ImpMsg.status.inj (hmsg.symm.trans hs)
      exact ⟨v, hv, hc, hview⟩
  · have hvv := h.eq_of_mem_rebind hv hv' hn
    split_ifs at hvv <;> rw [hvv] at hv'a
    · cases hv'a
    · rw [hva] at hv'a
      cases hv'a

/-! ## The friend operations -/

theorem mem_tellBoth {m : Sent} {m₁ m₂ : ImpMsg} (hm : m ∈ tellBoth c r m₁ m₂) :
    m = ⟨c, m₁⟩ ∨ m = ⟨r.connfd, m₂⟩ := by
  unfold tellBoth at hm
  split_ifs at hm
  · simpa using hm
  · exact Or.inl (by simpa using hm)

/-- An edit of a pair changes the two users' views of each other. -/
theorem view_setPair (h : db.Rep) (hs : db.findUser s.name = some s)
    (hr : db.findUser r.name = some r) (hne : s.name ≠ r.name) {st st' : Option ImpFriend}
    {lr ls : List DbFriend} (hlr : EditAt s.name st r.flist lr)
    (hls : EditAt r.name st' s.flist ls) (v w : CStr) :
    (db.setPair r.name s.name lr ls).view v w =
      if v = r.name ∧ w = s.name then seen st s.active
      else if v = s.name ∧ w = r.name then seen st' r.active else db.view v w := by
  rw [Db.view_eq, h.rel_setPair hr hs hne.symm hlr hls, Db.setPair, Db.activeOf_relist]
  split_ifs with h₁ h₂
  · rw [h₁.2, Db.activeOf_of_mem h (Db.mem_of_findUser hs)]
  · rw [h₂.2, Db.activeOf_of_mem h (Db.mem_of_findUser hr)]
  · rfl

/-- An edit of a pair, of which both users are told their new view. -/
theorem notified_setPair (h : db.Rep) (hs : db.findConn c = some s)
    (hr : db.findUser r.name = some r) (hne : s.name ≠ r.name) {st st' : Option ImpFriend}
    {lr ls : List DbFriend} (hlr : EditAt s.name st r.flist lr)
    (hls : EditAt r.name st' s.flist ls) :
    Notified db (db.setPair r.name s.name lr ls)
      (tellBoth c r (.status r.name (seen st' r.active).1 (seen st' r.active).2)
        (.status s.name (seen st s.active).1 (seen st s.active).2)) := by
  have hsm := Db.mem_of_findConn hs
  have hrm := Db.mem_of_findUser hr
  have hc := Db.connfd_of_findConn hs
  have hview := view_setPair h (h.findUser_of_mem hsm) hr hne hlr hls
  have hmem : ∀ v ∈ db.users, ∃ v' ∈ (db.setPair r.name s.name lr ls).users,
      v'.name = v.name ∧ v'.connfd = v.connfd :=
    fun v hv => ⟨_, List.mem_map_of_mem hv, rfl, rfl⟩
  refine ⟨fun v hv v' hv' hn hva _ w hw => ?_, fun m hm w st₁ a hs₁ => ?_,
    fun v hv v' hv' hn hva hv'a => ?_⟩
  · have hvv := h.eq_of_mem_relist hv hv' hn
    refine ⟨by rw [hvv], ?_⟩
    rw [Db.viewMsg]
    rw [hview] at hw ⊢
    split_ifs at hw ⊢ with h₁ h₂
    · -- the requested user, who is active
      obtain rfl := List.inj_on_of_nodup_map h.names hv hrm h₁.1
      simp [tellBoth, hva, h₁.2]
    · obtain rfl := List.inj_on_of_nodup_map h.names hv hsm h₂.1
      simp [tellBoth, hc, h₂.2]
    · exact absurd rfl hw
  · rcases mem_tellBoth hm with rfl | rfl <;> obtain ⟨rfl, rfl, rfl⟩ := ImpMsg.status.inj hs₁
    · obtain ⟨s', hs', hname, hconn⟩ := hmem s hsm
      refine ⟨s', hs', by rw [hconn, hc], ?_⟩
      rw [hname, hview]
      simp [hne]
    · obtain ⟨r', hr', hname, hconn⟩ := hmem r hrm
      refine ⟨r', hr', hconn, ?_⟩
      rw [hname, hview]
      simp
  · rw [h.eq_of_mem_relist hv hv' hn] at hv'a
    simp [hva] at hv'a

/-! ## Every step -/

theorem notified_of_effect (h : db.Rep) {ev : Event} (he : Effect lim db ev db' out) :
    Notified db db' out := by
  cases he with
  | rejected => exact notified_same h (by simp)
  | ignored => exact notified_same h (by simp)
  | registered _ hn => exact notified_append h hn
  | loggedIn hu ha => exact notified_login h hu ha
  | loggedOut _ hu => exact notified_logout h (Db.mem_of_findConn hu)
  | asked hs hr hne hst =>
    have he := h.editAt_ask (h.findUser_of_mem (Db.mem_of_findConn hs)) hr hst
    exact notified_setPair h hs hr hne he.1 he.2
  | befriended hs hr hne hst =>
    have he := h.editAt_befriend (h.findUser_of_mem (Db.mem_of_findConn hs)) hr hst
    exact notified_setPair h hs hr hne he.1 he.2
  | parted hs hr hne =>
    have he := h.editAt_part (h.findUser_of_mem (Db.mem_of_findConn hs)) hr
    exact notified_setPair h hs hr hne he.1 he.2
  | @listed c u hu =>
    refine notified_same h fun m hm w st a hs => ?_
    obtain ⟨e, -, rfl⟩ := List.mem_map.1 hm
    obtain ⟨rfl, rfl, rfl⟩ := ImpMsg.status.inj hs
    exact ⟨u, Db.mem_of_findConn hu, Db.connfd_of_findConn hu, rfl⟩
  | delivered => exact notified_same h (by simp)

/-- Whatever a connection sends, and at its end, the step tells every user who stays
active about each view of his that changed, sends no `STATUS` but true ones, and lists
the friends of a user who logs in. -/
theorem notified_of_step (h : db.Rep) (lim : ImpLimits) (ev : Event) :
    ∃ db' out, step lim db ev = some (db', out) ∧ Notified db db' out := by
  obtain ⟨db', out, hs, he⟩ := step_effect h lim ev
  exact ⟨db', out, hs, notified_of_effect h he⟩

/-- Two friends, one of whom ends her connection. -/
theorem notified_of_step_duo : ∃ db' out, step impLimits
    (Db.duo [⟨some "bob".toList, .yes, yes_ne⟩] [⟨some "alice".toList, .yes, yes_ne⟩])
    (.disconnect 4) = some (db', out) ∧
      Notified (Db.duo [⟨some "bob".toList, .yes, yes_ne⟩]
        [⟨some "alice".toList, .yes, yes_ne⟩]) db' out :=
  notified_of_step (by decide) _ _

end Ims

end ClassProjects
