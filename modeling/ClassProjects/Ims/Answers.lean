import ClassProjects.Ims.Notification
import Mathlib.Data.List.Find

/-!
# What an answer gives away

Two properties of what the server sends back. A step that answers with an error does
nothing else (`rejected_leaves_no_trace`). And what a connection receives does not depend
on the activity of a user who is no friend of the user it is bound to
(`presence_private`) : of two databases that differ in that user's activity only, each
friend operation, message and logout makes the same answers and the same lists.
-/

namespace ClassProjects

namespace Ims

variable {lim : ImpLimits} {db db' : Db} {u v r s : DbUser} {n m w : CStr} {c : ℕ}
  {out : List Sent}

/-! ## Errors -/

/-- The server's refusals. -/
def ImpMsg.IsError : ImpMsg → Prop
  | .error _ _ => True
  | _ => False

/-- A step that sends an error sends nothing else and leaves the database alone. -/
theorem Effect.only_error {ev : Event} (he : Effect lim db ev db' out)
    (herr : ∃ x ∈ out, x.msg.IsError) : (∃ x, out = [x] ∧ x.connfd = ev.connfd) ∧ db' = db := by
  obtain ⟨x, hx, herr⟩ := herr
  cases he with
  | rejected et name => exact ⟨⟨_, rfl, rfl⟩, rfl⟩
  | ignored => exact absurd hx List.not_mem_nil
  | registered hv hn =>
    obtain rfl := List.mem_singleton.1 hx
    exact herr.elim
  | loggedIn hu ha =>
    rcases List.mem_append.1 hx with hx | hx
    · rcases List.mem_cons.1 hx with rfl | hx
      · exact herr.elim
      · obtain ⟨e, -, rfl⟩ := List.mem_map.1 hx
        exact herr.elim
    · obtain ⟨f, -, rfl⟩ := List.mem_map.1 hx
      exact herr.elim
  | loggedOut hev hu =>
    rcases List.mem_cons.1 hx with rfl | hx
    · exact herr.elim
    · obtain ⟨f, -, rfl⟩ := List.mem_map.1 hx
      exact herr.elim
  | asked =>
    rcases mem_tellBoth hx with rfl | rfl <;> exact herr.elim
  | befriended =>
    rcases mem_tellBoth hx with rfl | rfl <;> exact herr.elim
  | parted =>
    rcases mem_tellBoth hx with rfl | rfl <;> exact herr.elim
  | listed hu =>
    obtain ⟨e, -, rfl⟩ := List.mem_map.1 hx
    exact herr.elim
  | delivered =>
    rcases List.mem_pair.1 hx with rfl | rfl <;> exact herr.elim

/-- Whatever a connection sends : if the answer has an error, that is all that is sent, it
goes to the connection, and the database is as before ; and a step that changes the
database or sends anything elsewhere sends no error. -/
theorem rejected_leaves_no_trace (h : db.Rep) (lim : ImpLimits) (c : ℕ) (pm : Option ImpMsg) :
    ∃ db' out, step lim db (.msg c pm) = some (db', out) ∧
      ((∃ x ∈ out, x.msg.IsError) → (∃ x, out = [x] ∧ x.connfd = c) ∧ db' = db) ∧
      ((db' ≠ db ∨ ∃ x ∈ out, x.connfd ≠ c) → ∀ x ∈ out, ¬x.msg.IsError) := by
  obtain ⟨db', out, hs, he⟩ := step_effect h lim (.msg c pm)
  refine ⟨db', out, hs, he.only_error, fun hdone x hx herr => ?_⟩
  obtain ⟨⟨y, rfl, hy⟩, rfl⟩ := he.only_error ⟨x, hx, herr⟩
  rcases hdone with hdb | ⟨z, hz, hzc⟩
  · exact hdb rfl
  · obtain rfl := List.mem_singleton.1 hz
    exact hzc hy

theorem rejected_leaves_no_trace_duo : ∃ db' out,
    step impLimits (Db.duo [] []) (.msg 4 (some (.op (.friendRemove "bob".toList)))) =
      some (db', out) ∧
    ((∃ x ∈ out, x.msg.IsError) → (∃ x, out = [x] ∧ x.connfd = (4 : ℕ)) ∧ db' = Db.duo [] []) ∧
    ((db' ≠ Db.duo [] [] ∨ ∃ x ∈ out, x.connfd ≠ (4 : ℕ)) → ∀ x ∈ out, ¬x.msg.IsError) :=
  rejected_leaves_no_trace (by decide) impLimits 4 (some (.op (.friendRemove "bob".toList)))

/-! ## Two databases that differ in one user's activity -/

/-- The two databases are the same but for the activity and the connection of the user `n`. -/
def SameBut (n : CStr) (db db' : Db) : Prop :=
  db.rebind n .not (-1) = db'.rebind n .not (-1)

/-- The messages that reach a connection. -/
def received (c : ℕ) (out : List Sent) : List Sent :=
  out.filter fun x => x.connfd = c

theorem received_cons (x : Sent) (out : List Sent) :
    received c (x :: out) = if x.connfd = c then x :: received c out else received c out := by
  simp [received, List.filter_cons]

/-- The names with their friend lists. -/
def Db.flists (db : Db) : List (CStr × List DbFriend) :=
  db.users.map fun u => (u.name, u.flist)

/-- What happened looks the same from the connection and has made the same lists. -/
structure SameFrom (c : ℕ) (db db' : Db) (out out' : List Sent) : Prop where
  received : received c out = received c out'
  flists : db.flists = db'.flists

variable {active : ImpActive} {fd : ℤ}

theorem Db.rebind_rebind (db : Db) (n : CStr) (a a' : ImpActive) (fd fd' : ℤ) :
    (db.rebind n a fd).rebind n a' fd' = db.rebind n a' fd' := by
  simp only [Db.rebind, KeyedList.updateKey, List.map_map]
  congr 1
  refine List.map_congr_left fun u _ => ?_
  by_cases hu : u.name = n <;> simp [hu, DbUser.rebind]

/-- Binding a user the way he is bound changes nothing. -/
theorem Db.rebind_self (h : db.names.Nodup) (hu : u ∈ db.users) :
    db.rebind u.name u.active u.connfd = db := by
  rw [Db.rebind, KeyedList.updateKey_eq_self fun x hx hn => ?_]
  rw [List.inj_on_of_nodup_map h hx hu hn]
  rfl

theorem Db.rebind_of_notMem (hn : n ∉ db.names) : db.rebind n active fd = db := by
  rw [Db.rebind, KeyedList.updateKey_eq_self fun x hx hxn => ?_]
  exact absurd (List.mem_map.2 ⟨x, hx, hxn⟩) hn

/-- Of two such databases, one is the other with the user bound in some other way. -/
theorem SameBut.exists_rebind (hsame : SameBut n db db') (h' : db'.Rep)
    (hc' : ∀ u ∈ db'.users, u.name = n → u.connfd ≠ c) :
    ∃ (a : ImpActive) (fd : ℤ), (a = .yes ↔ fd ≠ -1) ∧ fd ≠ c ∧ db' = db.rebind n a fd := by
  by_cases hn : n ∈ db'.names
  · obtain ⟨u, hu, rfl⟩ := List.mem_map.1 hn
    refine ⟨u.active, u.connfd, h'.active_iff u hu, hc' u hu rfl, ?_⟩
    calc db' = db'.rebind u.name u.active u.connfd := (Db.rebind_self h'.names hu).symm
      _ = (db'.rebind u.name .not (-1)).rebind u.name u.active u.connfd :=
        (Db.rebind_rebind ..).symm
      _ = (db.rebind u.name .not (-1)).rebind u.name u.active u.connfd := by rw [hsame]
      _ = db.rebind u.name u.active u.connfd := Db.rebind_rebind ..
  · refine ⟨.not, -1, by simp, by omega, ?_⟩
    rw [hsame, Db.rebind_of_notMem hn]

/-- A user who is not bound to a connection, before or after, does not change who is. -/
theorem Db.findConn_rebind (hc : ∀ u ∈ db.users, u.name = n → u.connfd ≠ c) (hfd : fd ≠ c) :
    (db.rebind n active fd).findConn c = db.findConn c := by
  have htest : ∀ u ∈ db.users, ((fun x : DbUser => decide (x.connfd = c)) ∘ fun x =>
      if x.name = n then x.rebind active fd else x) u = decide (u.connfd = c) := by
    intro u hu
    by_cases hn : u.name = n
    · simp [hn, DbUser.rebind, hfd, hc u hu hn]
    · simp [hn]
  have hfind : (db.rebind n active fd).findConn c = (db.findConn c).map fun x =>
      if x.name = n then x.rebind active fd else x := by
    rw [Db.findConn, Db.rebind, KeyedList.updateKey, List.find?_map, List.find?_congr htest]
    rfl
  rw [hfind]
  cases hv : db.findConn c with
  | none => rfl
  | some v =>
    have hne : v.name ≠ n := fun hn => hc v (Db.mem_of_findConn hv) hn (Db.connfd_of_findConn hv)
    rw [Option.map_some, if_neg hne]

@[simp] theorem Db.flists_rebind : (db.rebind n active fd).flists = db.flists := by
  rw [Db.flists, Db.rebind, KeyedList.updateKey, List.map_map]
  refine List.map_congr_left fun u _ => ?_
  by_cases hu : u.name = n <;> simp [hu]

/-- What an edit of a pair makes of the lists depends on the lists alone. -/
theorem Db.flists_setPair (h : db.flists = db'.flists) (a b : CStr) (la lb : List DbFriend) :
    (db.setPair a b la lb).flists = (db'.setPair a b la lb).flists := by
  have hmap : ∀ db : Db, (db.setPair a b la lb).flists = db.flists.map fun p =>
      (p.1, if p.1 = a then la else if p.1 = b then lb else p.2) := by
    intro db
    simp [Db.flists, Db.setPair, Db.relist, Function.comp_def]
  rw [hmap, hmap, h]

/-- A user in two databases : the same, or the user `n`, not bound to the connection. -/
structure SameUser (c : ℕ) (n : CStr) (r r' : DbUser) : Prop where
  name : r'.name = r.name
  flist : r'.flist = r.flist
  same : r' = r ∨ (r.name = n ∧ r.connfd ≠ c ∧ r'.connfd ≠ c)

/-- Two searches that found nobody, or the same user. -/
def SameFound (c : ℕ) (n : CStr) (o o' : Option DbUser) : Prop :=
  (o = none ∧ o' = none) ∨ ∃ r r', o = some r ∧ o' = some r' ∧ SameUser c n r r'

theorem sameFound_rebind (a : ImpActive) (hc : ∀ u ∈ db.users, u.name = n → u.connfd ≠ c)
    (hfd : fd ≠ c) (m : CStr) :
    SameFound c n (db.findUser m) ((db.rebind n a fd).findUser m) := by
  rw [Db.findUser_rebind]
  cases hr : db.findUser m with
  | none => exact Or.inl ⟨rfl, rfl⟩
  | some r =>
    obtain rfl := Db.name_of_findUser hr
    rw [Option.map_some]
    refine Or.inr ⟨r, _, rfl, rfl, ?_⟩
    by_cases hn : r.name = n
    · rw [if_pos hn]
      exact ⟨rfl, rfl, Or.inr ⟨hn, hc r (Db.mem_of_findUser hr) hn, hfd⟩⟩
    · rw [if_neg hn]
      exact ⟨rfl, rfl, Or.inl rfl⟩

/-- Whoever is no friend of `n` sees everybody as before. -/
theorem Db.view_rebind_of_ne_yes (h : db.rel m n ≠ some .yes) (w : CStr) :
    (db.rebind n active fd).view m w = db.view m w := by
  by_cases hn : n ∈ db.names
  · obtain ⟨u, hu⟩ := Db.mem_names.1 hn
    by_contra hne
    exact h (Db.view_rebind_ne hu hne).2
  · rw [Db.rebind_of_notMem hn]

theorem received_tellBoth {r' : DbUser} (hr : SameUser c n r r') (m₁ m₂ : ImpMsg) :
    received c (tellBoth c r m₁ m₂) = received c (tellBoth c r' m₁ m₂) := by
  rcases hr.same with rfl | ⟨-, hr, hr'⟩
  · rfl
  · have hone : ∀ x : DbUser, x.connfd ≠ c → received c (tellBoth c x m₁ m₂) = [⟨c, m₁⟩] := by
      intro x hx
      unfold tellBoth
      split_ifs <;> simp [received, hx]
    rw [hone r hr, hone r' hr']

theorem SameUser.rebind {r' : DbUser} (h : SameUser c n r r') (a : ImpActive) {fd : ℤ}
    (hfd : fd ≠ c) : SameUser c n (r.rebind a fd) (r'.rebind a fd) where
  name := h.name
  flist := h.flist
  same := by
    rcases h.same with rfl | ⟨hn, -, -⟩
    · exact Or.inl rfl
    · exact Or.inr ⟨hn, hfd, hfd⟩

/-- Two searches for a user after the same binding of another one. -/
theorem SameFound.rebind {o o' : Option DbUser} (h : SameFound c n o o') (m : CStr)
    (a : ImpActive) {fd : ℤ} (hfd : fd ≠ c) :
    SameFound c n (o.map fun u => if m = w then u.rebind a fd else u)
      (o'.map fun u => if m = w then u.rebind a fd else u) := by
  rcases h with ⟨rfl, rfl⟩ | ⟨r, r', rfl, rfl, h⟩
  · exact Or.inl ⟨rfl, rfl⟩
  · refine Or.inr ⟨_, _, rfl, rfl, ?_⟩
    split_ifs
    · exact h.rebind a hfd
    · exact h

/-- Friends who are told something. -/
theorem received_activeFriends (hfound : ∀ m, SameFound c n (db.findUser m) (db'.findUser m))
    (msg : ImpMsg) (l : List DbFriend) :
    received c ((activeFriends db l).map fun f => ⟨f.connfd, msg⟩) =
      received c ((activeFriends db' l).map fun f => ⟨f.connfd, msg⟩) := by
  induction l with
  | nil => rfl
  | cons e l ih =>
    have hderef : SameFound c n (db.deref e.friend) (db'.deref e.friend) := by
      cases e.friend with
      | none => exact Or.inl ⟨rfl, rfl⟩
      | some m => exact hfound m
    simp only [activeFriends] at ih ⊢
    rcases hderef with ⟨hr, hr'⟩ | ⟨r, r', hr, hr', hsame⟩
    · simpa only [List.filterMap_cons, hr, hr', Option.filter_none] using ih
    · simp only [List.filterMap_cons, hr, hr', Option.filter_some]
      rcases hsame.same with rfl | ⟨-, hne, hne'⟩
      · split_ifs <;> simp only [List.map_cons, received_cons, ih]
      · split_ifs <;> simp only [List.map_cons, received_cons, if_neg hne, if_neg hne', ih]

/-! ## The operations -/

/-- An operation succeeds in both databases, and unless the users `w` and `n` are friends
after it, what it does looks the same from the connection. -/
def SameAnswer (c : ℕ) (w n : CStr) (o o' : Option Outcome) : Prop :=
  ∃ r r', o = some r ∧ o' = some r' ∧
    (¬(r.db.rel w n = some .yes ∧ r.db.rel n w = some .yes) →
      SameFrom c r.db r'.db r.sent r'.sent)

theorem sameAnswer_error {w : CStr} (hl : db.flists = db'.flists) (ret : ℕ) (et : ImpError)
    (name : Option CStr) : SameAnswer c w n (some (answerError ret db c et name))
      (some (answerError ret db' c et name)) :=
  ⟨_, _, rfl, rfl, fun _ => ⟨rfl, hl⟩⟩

section Operations

variable (h : db.Rep) (hc : ∀ u ∈ db.users, u.name = n → u.connfd ≠ c) (hfd : fd ≠ c)
  (ha : active = .yes ↔ fd ≠ -1) (hv : db.findConn c = some v)

include h hc hfd ha hv

theorem friendRequest_private (m : CStr) : SameAnswer c v.name n (friendRequest db m c)
    (friendRequest (db.rebind n active fd) m c) := by
  have hv' : (db.rebind n active fd).findConn c = some v := by rw [Db.findConn_rebind hc hfd, hv]
  have hl : db.flists = (db.rebind n active fd).flists := Db.flists_rebind.symm
  by_cases hne : v.name = m
  · simp only [friendRequest, hv, hv', if_pos hne]
    exact sameAnswer_error hl _ _ _
  rcases sameFound_rebind active hc hfd m with ⟨hr, hr'⟩ | ⟨r, r', hr, hr', hsame⟩
  · simp only [friendRequest, hv, hv', if_neg hne, hr, hr']
    exact sameAnswer_error hl _ _ _
  · have hreq := friendRequest_eq h hv hr hne
    have hreq' := friendRequest_eq (h.rebind ha) hv' hr' hne
    obtain rfl := Db.name_of_findUser hr
    rw [hsame.name, hsame.flist] at hreq'
    cases hst : statusOf r.flist v.name with
    | none =>
      rw [hst] at hreq hreq'
      refine ⟨_, _, hreq, hreq', fun _ => ⟨received_tellBoth hsame _ _, ?_⟩⟩
      rw [Db.ask, Db.ask, hsame.name, hsame.flist]
      exact Db.flists_setPair hl ..
    | some st =>
      cases st with
      | not => exact absurd hst statusOf_ne_not
      | requested =>
        rw [hst] at hreq hreq'
        refine ⟨_, _, hreq, hreq', fun hnot => ⟨?_, ?_⟩⟩
        · -- they have become friends, so the requested user is another one
          have hvu := h.findUser_of_mem (Db.mem_of_findConn hv)
          have hrel := fun a b => h.rel_befriend hvu hr hne hst (n := a) (m := b)
          have hrn : r.name ≠ n := by
            rintro rfl
            exact hnot ⟨by simp [hrel], by simp [hrel]⟩
          rw [hsame.same.resolve_right fun hn => hrn hn.1]
        · rw [Db.befriend, Db.befriend, hsame.name, hsame.flist]
          exact Db.flists_setPair hl ..
      | toanswer =>
        rw [hreq, hreq', hst]
        exact sameAnswer_error hl _ _ _
      | yes =>
        rw [hreq, hreq', hst]
        exact sameAnswer_error hl _ _ _

theorem friendRemove_private (m : CStr) : SameAnswer c v.name n (friendRemove db m c)
    (friendRemove (db.rebind n active fd) m c) := by
  have hv' : (db.rebind n active fd).findConn c = some v := by rw [Db.findConn_rebind hc hfd, hv]
  have hl : db.flists = (db.rebind n active fd).flists := Db.flists_rebind.symm
  by_cases hne : v.name = m
  · simp only [friendRemove, hv, hv', if_pos hne]
    exact sameAnswer_error hl _ _ _
  rcases sameFound_rebind active hc hfd m with ⟨hr, hr'⟩ | ⟨r, r', hr, hr', hsame⟩
  · simp only [friendRemove, hv, hv', if_neg hne, hr, hr']
    exact sameAnswer_error hl _ _ _
  · have hrem := friendRemove_eq h hv hr hne
    have hrem' := friendRemove_eq (h.rebind ha) hv' hr' hne
    rw [hsame.name, hsame.flist] at hrem'
    cases hst : statusOf r.flist v.name with
    | none =>
      rw [hrem, hrem', hst]
      exact sameAnswer_error hl _ _ _
    | some st =>
      rw [hst] at hrem hrem'
      refine ⟨_, _, hrem, hrem', fun _ => ⟨received_tellBoth hsame _ _, ?_⟩⟩
      rw [Db.part, Db.part, hsame.name, hsame.flist]
      exact Db.flists_setPair hl ..

theorem friendList_private : SameAnswer c v.name n (friendList db c)
    (friendList (db.rebind n active fd) c) := by
  have hv' : (db.rebind n active fd).findConn c = some v := by rw [Db.findConn_rebind hc hfd, hv]
  refine ⟨_, _, friendList_eq h hv, friendList_eq (h.rebind ha) hv', fun hnot =>
    ⟨?_, Db.flists_rebind.symm⟩⟩
  have hne : db.rel v.name n ≠ some .yes := fun hyes => hnot ⟨hyes, h.rel_yes.1 hyes⟩
  have hown : ownStatus (db.rebind n active fd) c v = ownStatus db c v := by
    refine List.map_congr_left fun e _ => ?_
    rw [Db.viewMsg, Db.viewMsg, Db.view_rebind_of_ne_yes hne]
  rw [hown]

theorem imUser_private (m text : CStr) : SameAnswer c v.name n (imUser lim db m text c)
    (imUser lim (db.rebind n active fd) m text c) := by
  have hv' : (db.rebind n active fd).findConn c = some v := by rw [Db.findConn_rebind hc hfd, hv]
  have hl : db.flists = (db.rebind n active fd).flists := Db.flists_rebind.symm
  rcases sameFound_rebind active hc hfd m with ⟨hr, hr'⟩ | ⟨r, r', hr, hr', hsame⟩
  · simp only [imUser, hv, hv', hr, hr']
    exact sameAnswer_error hl _ _ _
  · have him := imUser_eq h lim text hv hr
    have him' := imUser_eq (h.rebind ha) lim text hv' hr'
    rw [Db.rel_rebind] at him'
    by_cases hrel : db.rel v.name m = some .yes
    · refine ⟨_, _, him, him', fun hnot => ?_⟩
      -- an operation without effect : the friends before it are the friends after it
      have hne : m ≠ n := by
        rintro rfl
        refine hnot ?_
        split_ifs <;> exact ⟨hrel, h.rel_yes.1 hrel⟩
      obtain rfl : r' = r :=
        hsame.same.resolve_right fun hn => hne ((Db.name_of_findUser hr).symm.trans hn.1)
      split_ifs <;> exact ⟨rfl, hl⟩
    · rw [him, him', if_pos hrel, if_pos hrel]
      exact sameAnswer_error hl _ _ _

theorem logoutUser_private : SameAnswer c v.name n (logoutUser db c)
    (logoutUser (db.rebind n active fd) c) := by
  have hv' : (db.rebind n active fd).findConn c = some v := by rw [Db.findConn_rebind hc hfd, hv]
  have hfound : ∀ m, SameFound c n ((db.rebind v.name .not (-1)).findUser m)
      (((db.rebind n active fd).rebind v.name .not (-1)).findUser m) := by
    intro m
    rw [Db.findUser_rebind, Db.findUser_rebind]
    exact (sameFound_rebind active hc hfd m).rebind m .not (by omega)
  refine ⟨_, _, logoutUser_eq h hv, logoutUser_eq (h.rebind ha) hv', fun _ => ⟨?_, by simp⟩⟩
  simp only [received_cons, received_activeFriends hfound]

end Operations

/-- The operations of a client that is logged in on its friends. -/
inductive ImpMsgOp.AboutFriends : ImpMsgOp → Prop
  | friendRequest (m : CStr) : AboutFriends (.friendRequest m)
  | friendRemove (m : CStr) : AboutFriends (.friendRemove m)
  | friendList : AboutFriends .friendList
  | im (m text : CStr) : AboutFriends (.im m text)
  | logout : AboutFriends .logout

/-- Let two databases differ in whether `n` is active and on which connection other than
`c`, and let `v` be the user the server takes `c` to be. Unless `v` and `n` are friends
after it, an operation from `c` sends the same messages to `c` and makes the same lists. -/
theorem presence_private (h : db.Rep) (h' : db'.Rep) (hsame : SameBut n db db')
    (hc : ∀ u ∈ db.users, u.name = n → u.connfd ≠ c)
    (hc' : ∀ u ∈ db'.users, u.name = n → u.connfd ≠ c) (hv : db.findConn c = some v)
    (lim : ImpLimits) {mop : ImpMsgOp} (hop : mop.AboutFriends) :
    ∃ db₁ out₁ db₂ out₂, step lim db (.msg c (some (.op mop))) = some (db₁, out₁) ∧
      step lim db' (.msg c (some (.op mop))) = some (db₂, out₂) ∧
      (¬(db₁.rel v.name n = some .yes ∧ db₁.rel n v.name = some .yes) →
        SameFrom c db₁ db₂ out₁ out₂) := by
  obtain ⟨a, fd, ha, hfd, rfl⟩ := hsame.exists_rebind h' hc'
  have hanswer : SameAnswer c v.name n (handleOp lim db c mop)
      (handleOp lim (db.rebind n a fd) c mop) := by
    cases hop with
    | friendRequest m => exact friendRequest_private h hc hfd ha hv m
    | friendRemove m => exact friendRemove_private h hc hfd ha hv m
    | friendList => exact friendList_private h hc hfd ha hv
    | im m text => exact imUser_private h hc hfd ha hv m text
    | logout => exact logoutUser_private h hc hfd ha hv
  obtain ⟨r, r', hr, hr', hlook⟩ := hanswer
  refine ⟨r.db, r.sent, r'.db, r'.sent, ?_, ?_, hlook⟩
  · rw [step, handleMsg, hr, Option.map_some]
  · rw [step, handleMsg, hr', Option.map_some]

/-- Alice and carol on connection 4, and bob, a friend of alice's, as given. -/
def Db.shared (active : ImpActive) (fd : ℤ) : Db :=
  ⟨[⟨"alice".toList, .yes, 4, [⟨some "bob".toList, .yes, yes_ne⟩]⟩, ⟨"carol".toList, .yes, 4, []⟩,
    ⟨"bob".toList, active, fd, [⟨some "alice".toList, .yes, yes_ne⟩]⟩], 3⟩

theorem presence_private_shared : ∃ db₁ out₁ db₂ out₂,
    step impLimits (Db.shared .yes 5)
      (.msg 4 (some (.op (.friendRemove "bob".toList)))) = some (db₁, out₁) ∧
    step impLimits (Db.shared .not (-1))
      (.msg 4 (some (.op (.friendRemove "bob".toList)))) = some (db₂, out₂) ∧
    (¬(db₁.rel "alice".toList "bob".toList = some .yes ∧
        db₁.rel "bob".toList "alice".toList = some .yes) →
      SameFrom 4 db₁ db₂ out₁ out₂) := by
  have h : (Db.shared .yes 5).Rep := by decide
  have h' : (Db.shared .not (-1)).Rep := by decide
  have hsame : SameBut "bob".toList (Db.shared .yes 5) (Db.shared .not (-1)) := rfl
  have hv : (Db.shared .yes 5).findConn 4 =
      some ⟨"alice".toList, .yes, 4, [⟨some "bob".toList, .yes, yes_ne⟩]⟩ := by decide
  exact presence_private h h' hsame (by decide) (by decide) hv impLimits (.friendRemove _)

/-- Carol is bound to connection 4 and no friend of bob's, but the server takes the
connection for alice's and lists bob's activity on it. -/
theorem presence_shared :
    (Db.shared .yes 5).Rep ∧ (Db.shared .not (-1)).Rep ∧
    SameBut "bob".toList (Db.shared .yes 5) (Db.shared .not (-1)) ∧
    (∀ db ∈ [Db.shared .yes 5, Db.shared .not (-1)],
      (∀ u ∈ db.users, u.name = "bob".toList → u.connfd ≠ (4 : ℕ)) ∧
      (∃ v ∈ db.users, v.name = "carol".toList ∧ v.connfd = (4 : ℕ)) ∧
      db.rel "carol".toList "bob".toList = none) ∧
    ∃ out₁ out₂,
      step impLimits (Db.shared .yes 5) (.msg 4 (some (.op .friendList))) =
        some (Db.shared .yes 5, out₁) ∧
      step impLimits (Db.shared .not (-1)) (.msg 4 (some (.op .friendList))) =
        some (Db.shared .not (-1), out₂) ∧
      received 4 out₁ ≠ received 4 out₂ := by
  refine ⟨by decide, by decide, rfl, by decide, ?_⟩
  exact ⟨[⟨4, .status "bob".toList .yes .yes⟩], [⟨4, .status "bob".toList .yes .not⟩], by decide,
    by decide, by decide⟩

end Ims

end ClassProjects
