import ClassProjects.Ims.Rep
import ClassProjects.Lib.Machine

/-!
# What each handler does

One equation for each handler on a database with the representation invariant : which
edit it makes and what it sends. No search meets a NULL there, so every handler succeeds.

`Effect` lists the ways an event can be handled, with the guards of each, and
`step_effect` says that there are no others. What holds of every step is proved by cases
on it.
-/

namespace ClassProjects

namespace Ims

open KeyedList

variable {lim : ImpLimits} {db : Db} {u v s r : DbUser} {l : List DbFriend} {n m : CStr}
  {e : DbFriend} {st : ImpFriend} {c : ℕ}

/-! ## Messages about a friend -/

/-- Whether the user with the name is active. -/
def Db.activeOf (db : Db) (n : CStr) : ImpActive :=
  ((db.findUser n).map DbUser.active).getD .not

/-- How `v` sees `w` : the friend status, and `w`'s activity if they are friends. -/
def Db.view (db : Db) (v w : CStr) : ImpFriend × ImpActive :=
  match db.rel v w with
  | none => (.not, .not)
  | some .yes => (.yes, db.activeOf w)
  | some st => (st, .not)

/-- The `STATUS` message that tells `v` how he sees `w`. -/
def Db.viewMsg (db : Db) (v w : CStr) : ImpMsg :=
  .status w (db.view v w).1 (db.view v w).2

/-- One `STATUS` for each entry of `u`'s list, in list order. -/
def ownStatus (db : Db) (c : ℕ) (u : DbUser) : List Sent :=
  u.flist.map fun e => ⟨c, db.viewMsg u.name (e.friend.getD [])⟩

/-- The active friends in a list. -/
def activeFriends (db : Db) (l : List DbFriend) : List DbUser :=
  l.filterMap fun e => (db.deref e.friend).filter fun f => f.active = .yes ∧ e.status = .yes

theorem Db.activeOf_of_mem (h : db.Rep) (hu : u ∈ db.users) : db.activeOf u.name = u.active := by
  simp [Db.activeOf, h.findUser_of_mem hu]

/-- Every entry's pointer leads to the user it names. -/
theorem Db.Rep.deref_of_mem (h : db.Rep) (hu : u ∈ db.users) (he : e ∈ u.flist) :
    ∃ v ∈ db.users, e.friend = some v.name ∧ db.deref e.friend = some v := by
  obtain ⟨v, hv, hev⟩ := h.resolves u hu e he
  exact ⟨v, hv, hev, by simp [Db.deref, hev, h.findUser_of_mem hv]⟩

theorem friendStatus_eq (h : db.Rep) (hu : u ∈ db.users) (he : e ∈ u.flist) :
    friendStatus db c e = some ⟨c, db.viewMsg u.name (e.friend.getD [])⟩ := by
  obtain ⟨v, hv, hev, hd⟩ := h.deref_of_mem hu he
  have hs : db.rel u.name v.name = some e.status := by
    rw [h.rel_eq hu, statusOf_of_mem (h.friends u hu) he hev]
  have hne := e.status_ne
  cases hst : e.status <;>
    simp_all [friendStatus, Db.viewMsg, Db.view, Db.activeOf_of_mem]

theorem mapM_friendStatus (h : db.Rep) (hu : u ∈ db.users) :
    u.flist.mapM (friendStatus db c) = some (ownStatus db c u) := by
  have hall : ∀ l : List DbFriend, (∀ e ∈ l, e ∈ u.flist) → l.mapM (friendStatus db c) =
      some (l.map fun e => ⟨c, db.viewMsg u.name (e.friend.getD [])⟩) := by
    intro l
    induction l with
    | nil => simp
    | cons e l ih =>
      intro hl
      rw [List.mapM_cons, friendStatus_eq h hu (hl e List.mem_cons_self),
        ih fun e' he' => hl e' (List.mem_cons_of_mem _ he')]
      rfl
  exact hall u.flist fun _ he => he

theorem notifyFriends_eq (msg : ImpMsg) (hl : ∀ e ∈ l, ∃ f, db.deref e.friend = some f) :
    notifyFriends db msg l = some ((activeFriends db l).map fun f => ⟨f.connfd, msg⟩) := by
  induction l with
  | nil => rfl
  | cons e l ih =>
    obtain ⟨f, hf⟩ := hl e List.mem_cons_self
    simp only [notifyFriends, hf, ih fun e' he' => hl e' (List.mem_cons_of_mem _ he'),
      Option.map_some, activeFriends, List.filterMap_cons]
    by_cases hy : f.active = .yes ∧ e.status = .yes <;> simp [hy, Option.filter]

/-- The users told about `u` are his active friends. -/
theorem mem_activeFriends (h : db.Rep) (hu : u ∈ db.users) :
    v ∈ activeFriends db u.flist ↔
      v ∈ db.users ∧ v.active = .yes ∧ db.rel u.name v.name = some .yes := by
  simp only [activeFriends, List.mem_filterMap, Option.filter_eq_some_iff, decide_eq_true_eq]
  constructor
  · rintro ⟨e, he, hd, ha, hs⟩
    obtain ⟨w, hw, hew, hdw⟩ := h.deref_of_mem hu he
    obtain rfl : w = v := by simpa [hdw] using hd
    exact ⟨hw, ha, by rw [h.rel_eq hu, statusOf_of_mem (h.friends u hu) he hew, hs]⟩
  · rintro ⟨hv, ha, hs⟩
    rw [h.rel_eq hu] at hs
    obtain ⟨e, he, hev, hs⟩ := mem_of_statusOf hs
    exact ⟨e, he, by simp [hev, Db.deref, h.findUser_of_mem hv], ha, hs⟩

/-! ## The search of a friend list -/

theorem scanFriend_split {b t : List DbFriend} (hb : ∀ y ∈ b, ∃ m, y.friend = some m ∧ m ≠ n)
    (hn : e.friend = some n) : scanFriend n (b ++ e :: t) = some (b, e :: t) := by
  induction b with
  | nil => simp [scanFriend, hn]
  | cons y b ih =>
    obtain ⟨m, hm, hne⟩ := hb y List.mem_cons_self
    simp [scanFriend, hm, hne, ih fun z hz => hb z (List.mem_cons_of_mem _ hz)]

theorem scanFriend_none (hl : ∀ y ∈ l, ∃ m, y.friend = some m ∧ m ≠ n) :
    scanFriend n l = some (l, []) := by
  induction l with
  | nil => rfl
  | cons y l ih =>
    obtain ⟨m, hm, hne⟩ := hl y List.mem_cons_self
    simp [scanFriend, hm, hne, ih fun z hz => hl z (List.mem_cons_of_mem _ hz)]

/-- A search that finds nothing passes the whole list. -/
theorem Db.Rep.scanFriend_of_none (h : db.Rep) (hu : u ∈ db.users)
    (hn : statusOf u.flist n = none) : scanFriend n u.flist = some (u.flist, []) := by
  refine scanFriend_none fun e he => ?_
  obtain ⟨v, -, hev⟩ := h.resolves u hu e he
  exact ⟨v.name, hev, fun hvn => statusOf_eq_none.1 hn e he (hvn ▸ hev)⟩

/-- A search that finds an entry splits the list there, and rewriting or unlinking the
node it found is the edit of the entry's key. -/
theorem Db.Rep.scanFriend_of_some (h : db.Rep) (hu : u ∈ db.users)
    (hn : statusOf u.flist n = some st) : ∃ b e t, scanFriend n u.flist = some (b, e :: t) ∧
      e.friend = some n ∧ e.status = st ∧ u.flist = b ++ e :: t ∧
      (∀ f : DbFriend → DbFriend, b ++ f e :: t = updateKey DbFriend.friend (some n) f u.flist) ∧
      b ++ t = dropKey DbFriend.friend (some n) u.flist := by
  obtain ⟨e, he, hst⟩ := Option.map_eq_some_iff.1 hn
  have hen := key_of_lookup he
  obtain ⟨b, t, hl, hb, ht⟩ := split_of_lookup (h.friends u hu) he
  refine ⟨b, e, t, ?_, hen, hst, hl, fun f => ?_, ?_⟩
  · rw [hl]
    refine scanFriend_split (fun y hy => ?_) hen
    obtain ⟨v, -, hyv⟩ := h.resolves u hu y (by rw [hl]; exact List.mem_append_left _ hy)
    exact ⟨v.name, hyv, fun hvn => hb y hy (hvn ▸ hyv)⟩
  · rw [hl, updateKey_split hb hen ht]
  · rw [hl, dropKey_split hb hen ht]

/-! ## The edits -/

theorem updateUser_name (h : db.Rep) (hu : db.findUser n = some u) (f : DbUser → DbUser) :
    db.updateUser (fun u => u.name = n) f =
      { db with users := updateKey DbUser.name n f db.users } := by
  rw [Db.updateUser, updateFirst_eq_updateKey h.names hu, Db.name_of_findUser hu]

theorem updateUser_connfd (h : db.Rep) (hu : db.findConn c = some u) (f : DbUser → DbUser) :
    db.updateUser (fun u => u.connfd = c) f =
      { db with users := updateKey DbUser.name u.name f db.users } := by
  rw [Db.updateUser, updateFirst_eq_updateKey h.names hu]

theorem setFlist_name (h : db.Rep) (hu : db.findUser n = some u) (l : List DbFriend) :
    db.setFlist (fun u => u.name = n) l =
      db.relist fun u => if u.name = n then l else u.flist := by
  rw [Db.setFlist, updateUser_name h hu, Db.relist, updateKey]
  congr 1
  refine List.map_congr_left fun u _ => ?_
  split_ifs <;> rfl

/-- The two assignments of a critical section, to the list of the requested user and to
that of the requester, are an edit of the pair. -/
theorem setFlist_setFlist (h : db.Rep) (hs : db.findConn c = some s)
    (hr : db.findUser r.name = some r) (hne : s.name ≠ r.name) (ls lr : List DbFriend) :
    (db.setFlist (fun u => u.name = r.name) lr).setFlist (fun u => u.connfd = c) ls =
      db.setPair r.name s.name lr ls := by
  rw [setFlist_name h hr]
  have hnames : (db.relist fun u => if u.name = r.name then lr else u.flist).names.Nodup := by
    rw [Db.names_relist]
    exact h.names
  have hconn : (db.relist fun u => if u.name = r.name then lr else u.flist).findConn c =
      some s := by
    rw [Db.findConn_relist, hs]
    simp [hne]
  rw [Db.setFlist, Db.updateUser, updateFirst_eq_updateKey hnames hconn, Db.setPair,
    Db.relist, Db.relist, updateKey, List.map_map]
  congr 1
  refine List.map_congr_left fun u _ => ?_
  by_cases hus : u.name = s.name
  · simp [hus, hne]
  · by_cases hur : u.name = r.name <;> simp [hus, hur, hne.symm]

/-- `s` asks `r` : an entry to answer for `r`, a requested one for `s`. -/
def Db.ask (db : Db) (r s : DbUser) : Db :=
  db.setPair r.name s.name (r.flist ++ [⟨some s.name, .toanswer, toanswer_ne⟩])
    (s.flist ++ [⟨some r.name, .requested, requested_ne⟩])

/-- `r` and `s` become friends. -/
def Db.befriend (db : Db) (r s : DbUser) : Db :=
  db.setPair r.name s.name
    (updateKey DbFriend.friend (some s.name) (·.setStatus .yes yes_ne) r.flist)
    (updateKey DbFriend.friend (some r.name) (·.setStatus .yes yes_ne) s.flist)

/-- `r` and `s` forget each other. -/
def Db.part (db : Db) (r s : DbUser) : Db :=
  db.setPair r.name s.name (dropKey DbFriend.friend (some s.name) r.flist)
    (dropKey DbFriend.friend (some r.name) s.flist)

section Pair

variable (h : db.Rep) (hs : db.findUser s.name = some s) (hr : db.findUser r.name = some r)
  (hne : s.name ≠ r.name)

include h hs hr

theorem statusOf_pair : statusOf s.flist r.name = (statusOf r.flist s.name).map mirror := by
  rw [← h.rel_eq (Db.mem_of_findUser hs), ← h.rel_eq (Db.mem_of_findUser hr), h.rel_comm]

theorem Db.Rep.editAt_ask (hnone : statusOf r.flist s.name = none) :
    EditAt s.name (some .toanswer) r.flist
        (r.flist ++ [⟨some s.name, .toanswer, toanswer_ne⟩]) ∧
      EditAt r.name (some .requested) s.flist
        (s.flist ++ [⟨some r.name, .requested, requested_ne⟩]) :=
  ⟨editAt_append (h.friends r (Db.mem_of_findUser hr)) hnone _,
    editAt_append (h.friends s (Db.mem_of_findUser hs))
      (by rw [statusOf_pair h hs hr, hnone]; rfl) _⟩

theorem Db.Rep.editAt_befriend (hst : statusOf r.flist s.name = some st) :
    EditAt s.name (some .yes) r.flist
        (updateKey DbFriend.friend (some s.name) (·.setStatus .yes yes_ne) r.flist) ∧
      EditAt r.name (some .yes) s.flist
        (updateKey DbFriend.friend (some r.name) (·.setStatus .yes yes_ne) s.flist) :=
  ⟨editAt_setStatus (h.friends r (Db.mem_of_findUser hr)) hst _,
    editAt_setStatus (h.friends s (Db.mem_of_findUser hs))
      (by rw [statusOf_pair h hs hr, hst, Option.map_some]) _⟩

theorem Db.Rep.editAt_part :
    EditAt s.name none r.flist (dropKey DbFriend.friend (some s.name) r.flist) ∧
      EditAt r.name none s.flist (dropKey DbFriend.friend (some r.name) s.flist) :=
  ⟨editAt_drop (h.friends r (Db.mem_of_findUser hr)),
    editAt_drop (h.friends s (Db.mem_of_findUser hs))⟩

include hne

theorem Db.Rep.ask (hnone : statusOf r.flist s.name = none) : (db.ask r s).Rep :=
  have he := h.editAt_ask hs hr hnone
  h.setPair hr hs hne.symm he.1 he.2 rfl

theorem Db.Rep.befriend (hst : statusOf r.flist s.name = some st) : (db.befriend r s).Rep :=
  have he := h.editAt_befriend hs hr hst
  h.setPair hr hs hne.symm he.1 he.2 rfl

theorem Db.Rep.part : (db.part r s).Rep :=
  have he := h.editAt_part hs hr
  h.setPair hr hs hne.symm he.1 he.2 rfl

theorem Db.Rep.rel_ask (hnone : statusOf r.flist s.name = none) : (db.ask r s).rel n m =
    if n = r.name ∧ m = s.name then some .toanswer
    else if n = s.name ∧ m = r.name then some .requested else db.rel n m :=
  have he := h.editAt_ask hs hr hnone
  h.rel_setPair hr hs hne.symm he.1 he.2

theorem Db.Rep.rel_befriend (hst : statusOf r.flist s.name = some st) :
    (db.befriend r s).rel n m =
      if n = r.name ∧ m = s.name then some .yes
      else if n = s.name ∧ m = r.name then some .yes else db.rel n m :=
  have he := h.editAt_befriend hs hr hst
  h.rel_setPair hr hs hne.symm he.1 he.2

theorem Db.Rep.rel_part : (db.part r s).rel n m =
    if n = r.name ∧ m = s.name then none
    else if n = s.name ∧ m = r.name then none else db.rel n m :=
  have he := h.editAt_part hs hr
  h.rel_setPair hr hs hne.symm he.1 he.2

end Pair

/-! ## The handlers -/

theorem registerUser_new (hv : validUserName lim n = true) (hn : db.findUser n = none) :
    registerUser lim db n c = ⟨0, db.append n, [⟨c, .ack .register (some n)⟩]⟩ := by
  simp [registerUser, hv, hn, Db.append]

theorem loginUser_eq (h : db.Rep) (hu : db.findUser n = some u) (ha : u.active = .not) :
    loginUser db n c = some ⟨0, db.rebind n .yes c,
      ⟨c, .ack .login (some n)⟩ :: ownStatus (db.rebind n .yes c) c u ++
        (activeFriends (db.rebind n .yes c) u.flist).map
          fun f => ⟨f.connfd, .status n .yes .yes⟩⟩ := by
  have h' : (db.rebind n .yes c).Rep := h.rebind (by simp)
  have hu' : u.rebind .yes c ∈ (db.rebind n .yes c).users :=
    Db.mem_rebind.2 ⟨u, Db.mem_of_findUser hu, by simp [Db.name_of_findUser hu]⟩
  have hdb : (db.updateUser (fun u => u.name = n) fun u => u.rebind .yes c) =
      db.rebind n .yes c := updateUser_name h hu _
  have hown := mapM_friendStatus (c := c) h' hu'
  have hnotify := notifyFriends_eq (.status n .yes .yes) fun e he =>
    (h'.deref_of_mem hu' he).imp fun _ hf => hf.2.2
  simp only [DbUser.rebind] at hdb hown hnotify
  simp [loginUser, hu, ha, hdb, hown, hnotify]
  rfl

theorem logoutUser_eq (h : db.Rep) (hu : db.findConn c = some u) :
    logoutUser db c = some ⟨0, db.rebind u.name .not (-1),
      ⟨c, .ack .logout none⟩ :: (activeFriends (db.rebind u.name .not (-1)) u.flist).map
        fun f => ⟨f.connfd, .status u.name .yes .not⟩⟩ := by
  have hmem := Db.mem_of_findConn hu
  have ha := h.active_of_connfd hmem (Db.connfd_of_findConn hu)
  have h' : (db.rebind u.name .not (-1)).Rep := h.rebind (by simp)
  have hu' : u.rebind .not (-1) ∈ (db.rebind u.name .not (-1)).users :=
    Db.mem_rebind.2 ⟨u, hmem, by simp⟩
  have hdb : (db.updateUser (fun u => u.connfd = c) fun u => u.rebind .not (-1)) =
      db.rebind u.name .not (-1) := updateUser_connfd h hu _
  have hnotify := notifyFriends_eq (.status u.name .yes .not) fun e he =>
    (h'.deref_of_mem hu' he).imp fun _ hf => hf.2.2
  simp only [DbUser.rebind] at hdb hnotify
  simp [logoutUser, hu, ha, hdb, hnotify]

section Pair

variable (h : db.Rep) (hs : db.findConn c = some s) (hr : db.findUser r.name = some r)
  (hne : s.name ≠ r.name)

include h hs hr hne

theorem placeRequest_eq : placeRequest db c s r r.flist = db.ask r s := by
  have hs' : db.findUser s.name = some s := h.findUser_of_mem (Db.mem_of_findConn hs)
  have hr' : ∀ l, ((db.setFlist (fun u => u.name = r.name) l).findUser r.name).map DbUser.name =
      some r.name := by
    intro l
    rw [setFlist_name h hr, Db.findUser_relist, hr]
    rfl
  simp only [placeRequest, Db.dbFriendInit, hs', Option.map_some, hr']
  exact setFlist_setFlist h hs hr hne _ _

theorem makeFriends_eq {b t : List DbFriend} (he : statusOf r.flist s.name = some st)
    (hb : ∀ f : DbFriend → DbFriend,
      b ++ f e :: t = updateKey DbFriend.friend (some s.name) f r.flist) :
    makeFriends db c s r b e t = some (db.befriend r s) := by
  have hsm := Db.mem_of_findConn hs
  have hst : statusOf s.flist r.name = some (mirror st) := by
    rw [statusOf_pair h (h.findUser_of_mem hsm) hr, he, Option.map_some]
  obtain ⟨b', e', t', hscan, -, -, -, hf, -⟩ := h.scanFriend_of_some hsm hst
  simp only [makeFriends, hscan, Option.bind_eq_bind, Option.bind_some]
  rw [setFlist_setFlist h hs hr hne, hb (·.setStatus .yes yes_ne),
    hf (·.setStatus .yes yes_ne), Db.befriend]

theorem unlinkFriends_eq {b t : List DbFriend} (he : statusOf r.flist s.name = some st)
    (hb : b ++ t = dropKey DbFriend.friend (some s.name) r.flist) :
    unlinkFriends db c s r b t = some (db.part r s) := by
  have hsm := Db.mem_of_findConn hs
  have hst : statusOf s.flist r.name = some (mirror st) := by
    rw [statusOf_pair h (h.findUser_of_mem hsm) hr, he, Option.map_some]
  obtain ⟨b', e', t', hscan, -, -, -, -, hd⟩ := h.scanFriend_of_some hsm hst
  simp only [unlinkFriends, hscan, Option.bind_eq_bind, Option.bind_some]
  rw [setFlist_setFlist h hs hr hne, hb, hd, Db.part]

end Pair

theorem friendRequest_eq (h : db.Rep) (hs : db.findConn c = some s)
    (hr : db.findUser n = some r) (hne : s.name ≠ n) :
    friendRequest db n c = some (match statusOf r.flist s.name with
      | none => ⟨0, db.ask r s, tellBoth c r (.status r.name .requested .not)
          (.status s.name .toanswer .not)⟩
      | some .requested => ⟨0, db.befriend r s, tellBoth c r (.status r.name .yes r.active)
          (.status s.name .yes s.active)⟩
      | some .toanswer => answerError 0 db c .requestedAlready (some n)
      | some _ => answerError 0 db c .friendAlready (some r.name)) := by
  have hrm := Db.mem_of_findUser hr
  obtain rfl := Db.name_of_findUser hr
  simp only [friendRequest, hs, if_neg hne, hr]
  cases hst : statusOf r.flist s.name with
  | none =>
    simp [h.scanFriend_of_none hrm hst, placeRequest_eq h hs hr hne]
  | some st =>
    obtain ⟨b, e, t, hscan, -, he, -, hf, -⟩ := h.scanFriend_of_some hrm hst
    cases st <;> simp [hscan, he, makeFriends_eq h hs hr hne hst hf]

theorem friendRemove_eq (h : db.Rep) (hs : db.findConn c = some s)
    (hr : db.findUser n = some r) (hne : s.name ≠ n) :
    friendRemove db n c = some (match statusOf r.flist s.name with
      | none => answerError 1 db c .notFriend (some r.name)
      | some _ => ⟨0, db.part r s, tellBoth c r (.status r.name .not .not)
          (.status s.name .not .not)⟩) := by
  have hrm := Db.mem_of_findUser hr
  obtain rfl := Db.name_of_findUser hr
  simp only [friendRemove, hs, if_neg hne, hr]
  cases hst : statusOf r.flist s.name with
  | none => simp [h.scanFriend_of_none hrm hst]
  | some st =>
    obtain ⟨b, e, t, hscan, -, -, -, -, hd⟩ := h.scanFriend_of_some hrm hst
    simp [hscan, unlinkFriends_eq h hs hr hne hst hd]

theorem friendList_eq (h : db.Rep) (hu : db.findConn c = some u) :
    friendList db c = some ⟨0, db, ownStatus db c u⟩ := by
  simp [friendList, hu, mapM_friendStatus h (Db.mem_of_findConn hu)]

theorem imUser_eq (h : db.Rep) (lim : ImpLimits) (text : CStr) (hs : db.findConn c = some s)
    (hr : db.findUser n = some r) :
    imUser lim db n text c = some (
      if db.rel s.name n ≠ some .yes then answerError 1 db c .notFriend (some n)
      else if r.active = .not then answerError 1 db c .userNotActive (some n)
      else if validIM lim text = false then answerError 1 db c .badCommand none
      else ⟨0, db, [⟨r.connfd, .op (.im s.name text)⟩, ⟨c, .ack .im (some n)⟩]⟩) := by
  have hsm := Db.mem_of_findConn hs
  obtain rfl := Db.name_of_findUser hr
  rw [h.rel_eq hsm]
  cases hst : statusOf s.flist r.name with
  | none => simp [imUser, hs, hr, h.scanFriend_of_none hsm hst]
  | some st =>
    obtain ⟨b, e, t, hscan, -, he, -⟩ := h.scanFriend_of_some hsm hst
    simp only [imUser, hs, hr, hscan, Option.bind_eq_bind, Option.bind_some]
    simp only [List.head?_cons, Option.map_some, he]
    split_ifs <;> rfl

/-! ## Every step -/

/-- The connection an event comes from. -/
def Event.connfd : Event → ℕ
  | .msg connfd _ => connfd
  | .disconnect connfd => connfd

/-- The events that log their connection out. -/
def Event.isLogout : Event → Prop
  | .msg _ pm => pm = some (.op .logout)
  | .disconnect _ => True

/-- The ways to handle an event : the guards, the database after it, and the messages. -/
inductive Effect (lim : ImpLimits) (db : Db) : Event → Db → List Sent → Prop
  /-- An error goes to the connection, and nothing else happens. -/
  | rejected (ev : Event) (et : ImpError) (name : Option CStr) :
    Effect lim db ev db [⟨ev.connfd, .error et name⟩]
  /-- A message that is not an operation, or one without a handler. -/
  | ignored (ev : Event) : Effect lim db ev db []
  | registered {c : ℕ} {n : CStr} (hv : validUserName lim n = true)
    (hn : db.findUser n = none) :
    Effect lim db (.msg c (some (.op (.register n)))) (db.append n)
      [⟨c, .ack .register (some n)⟩]
  | loggedIn {c : ℕ} {n : CStr} {u : DbUser} (hu : db.findUser n = some u)
    (ha : u.active = .not) :
    Effect lim db (.msg c (some (.op (.login n)))) (db.rebind n .yes c)
      (⟨c, .ack .login (some n)⟩ :: ownStatus (db.rebind n .yes c) c u ++
        (activeFriends (db.rebind n .yes c) u.flist).map fun f => ⟨f.connfd, .status n .yes .yes⟩)
  | loggedOut {ev : Event} {u : DbUser} (hev : ev.isLogout) (hu : db.findConn ev.connfd = some u) :
    Effect lim db ev (db.rebind u.name .not (-1))
      (⟨ev.connfd, .ack .logout none⟩ ::
        (activeFriends (db.rebind u.name .not (-1)) u.flist).map
          fun f => ⟨f.connfd, .status u.name .yes .not⟩)
  | asked {c : ℕ} {s r : DbUser} (hs : db.findConn c = some s)
    (hr : db.findUser r.name = some r) (hne : s.name ≠ r.name)
    (hst : statusOf r.flist s.name = none) :
    Effect lim db (.msg c (some (.op (.friendRequest r.name)))) (db.ask r s)
      (tellBoth c r (.status r.name .requested .not) (.status s.name .toanswer .not))
  | befriended {c : ℕ} {s r : DbUser} (hs : db.findConn c = some s)
    (hr : db.findUser r.name = some r) (hne : s.name ≠ r.name)
    (hst : statusOf r.flist s.name = some .requested) :
    Effect lim db (.msg c (some (.op (.friendRequest r.name)))) (db.befriend r s)
      (tellBoth c r (.status r.name .yes r.active) (.status s.name .yes s.active))
  | parted {c : ℕ} {s r : DbUser} {st : ImpFriend} (hs : db.findConn c = some s)
    (hr : db.findUser r.name = some r) (hne : s.name ≠ r.name)
    (hst : statusOf r.flist s.name = some st) :
    Effect lim db (.msg c (some (.op (.friendRemove r.name)))) (db.part r s)
      (tellBoth c r (.status r.name .not .not) (.status s.name .not .not))
  | listed {c : ℕ} {u : DbUser} (hu : db.findConn c = some u) :
    Effect lim db (.msg c (some (.op .friendList))) db (ownStatus db c u)
  | delivered {c : ℕ} {s r : DbUser} {text : CStr} (hs : db.findConn c = some s)
    (hr : db.findUser r.name = some r) (hst : db.rel s.name r.name = some .yes)
    (ha : r.active = .yes) (hv : validIM lim text = true) :
    Effect lim db (.msg c (some (.op (.im r.name text)))) db
      [⟨r.connfd, .op (.im s.name text)⟩, ⟨c, .ack .im (some r.name)⟩]

/-- An outcome of an event that is one of its effects. -/
abbrev Handled (lim : ImpLimits) (db : Db) (ev : Event) (o : Option Outcome) : Prop :=
  ∃ r, o = some r ∧ Effect lim db ev r.db r.sent

theorem handled_error {ev : Event} {et : ImpError} {name : Option CStr} {ret : ℕ}
    {o : Option Outcome} (ho : o = some (answerError ret db ev.connfd et name)) :
    Handled lim db ev o :=
  ⟨_, ho, .rejected ev et name⟩

theorem registerUser_effect :
    Handled lim db (.msg c (some (.op (.register n)))) (some (registerUser lim db n c)) := by
  cases hv : validUserName lim n with
  | false => exact handled_error (by simp [registerUser, hv, Event.connfd]; rfl)
  | true =>
    cases hn : db.findUser n with
    | none => exact ⟨_, by rw [registerUser_new hv hn], .registered hv hn⟩
    | some u =>
      by_cases hc : u.connfd = c
      · exact handled_error (by simp [registerUser, hv, hn, hc, Event.connfd]; rfl)
      · exact handled_error (by simp [registerUser, hv, hn, hc, Event.connfd]; rfl)

theorem loginUser_effect (h : db.Rep) :
    Handled lim db (.msg c (some (.op (.login n)))) (loginUser db n c) := by
  cases hu : db.findUser n with
  | none => exact handled_error (by simp [loginUser, hu, Event.connfd]; rfl)
  | some u =>
    cases ha : u.active with
    | not => exact ⟨_, loginUser_eq h hu ha, .loggedIn hu ha⟩
    | yes =>
      by_cases hc : u.connfd = c
      · exact handled_error (by simp [loginUser, hu, ha, hc, Event.connfd]; rfl)
      · exact handled_error (by simp [loginUser, hu, ha, hc, Event.connfd]; rfl)

theorem logoutUser_effect (h : db.Rep) (ev : Event) (hev : ev.isLogout) :
    Handled lim db ev (logoutUser db ev.connfd) := by
  cases hu : db.findConn ev.connfd with
  | none => exact handled_error (by simp [logoutUser, hu]; rfl)
  | some u => exact ⟨_, logoutUser_eq h hu, .loggedOut hev hu⟩

theorem friendRequest_effect (h : db.Rep) :
    Handled lim db (.msg c (some (.op (.friendRequest n)))) (friendRequest db n c) := by
  cases hs : db.findConn c with
  | none => exact handled_error (by simp [friendRequest, hs, Event.connfd]; rfl)
  | some s =>
    by_cases hne : s.name = n
    · exact handled_error (by simp [friendRequest, hs, hne, Event.connfd]; rfl)
    · cases hr : db.findUser n with
      | none => exact handled_error (by simp [friendRequest, hs, hne, hr, Event.connfd]; rfl)
      | some r =>
        have heq := friendRequest_eq h hs hr hne
        obtain rfl := Db.name_of_findUser hr
        cases hst : statusOf r.flist s.name with
        | none => exact ⟨_, by rw [heq, hst], .asked hs hr hne hst⟩
        | some st =>
          cases st with
          | not => exact absurd hst statusOf_ne_not
          | requested => exact ⟨_, by rw [heq, hst], .befriended hs hr hne hst⟩
          | toanswer => exact handled_error (by rw [heq, hst]; rfl)
          | yes => exact handled_error (by rw [heq, hst]; rfl)

theorem friendRemove_effect (h : db.Rep) :
    Handled lim db (.msg c (some (.op (.friendRemove n)))) (friendRemove db n c) := by
  cases hs : db.findConn c with
  | none => exact handled_error (by simp [friendRemove, hs, Event.connfd]; rfl)
  | some s =>
    by_cases hne : s.name = n
    · exact handled_error (by simp [friendRemove, hs, hne, Event.connfd]; rfl)
    · cases hr : db.findUser n with
      | none => exact handled_error (by simp [friendRemove, hs, hne, hr, Event.connfd]; rfl)
      | some r =>
        have heq := friendRemove_eq h hs hr hne
        obtain rfl := Db.name_of_findUser hr
        cases hst : statusOf r.flist s.name with
        | none => exact handled_error (by rw [heq, hst]; rfl)
        | some st => exact ⟨_, by rw [heq, hst], .parted hs hr hne hst⟩

theorem friendList_effect (h : db.Rep) :
    Handled lim db (.msg c (some (.op .friendList))) (friendList db c) := by
  cases hu : db.findConn c with
  | none => exact handled_error (by simp [friendList, hu, Event.connfd]; rfl)
  | some u => exact ⟨_, friendList_eq h hu, .listed hu⟩

theorem imUser_effect (h : db.Rep) {text : CStr} :
    Handled lim db (.msg c (some (.op (.im n text)))) (imUser lim db n text c) := by
  cases hs : db.findConn c with
  | none => exact handled_error (by simp [imUser, hs, Event.connfd]; rfl)
  | some s =>
    cases hr : db.findUser n with
    | none => exact handled_error (by simp [imUser, hs, hr, Event.connfd]; rfl)
    | some r =>
      have heq := imUser_eq h lim text hs hr
      by_cases hst : db.rel s.name n = some .yes
      · cases ha : r.active with
        | not => exact handled_error (by rw [heq]; simp [hst, ha, Event.connfd]; rfl)
        | yes =>
          cases hv : validIM lim text with
          | false => exact handled_error (by rw [heq]; simp [hst, ha, hv, Event.connfd]; rfl)
          | true =>
            obtain rfl := Db.name_of_findUser hr
            simp only [hst, ha, hv, ne_eq, not_true, if_false, reduceCtorEq] at heq
            exact ⟨_, heq, .delivered hs hr hst ha hv⟩
      · exact handled_error (by rw [heq]; simp [hst, Event.connfd]; rfl)

/-- Every event succeeds, in one of the ways `Effect` lists. -/
theorem step_effect (h : db.Rep) (lim : ImpLimits) (ev : Event) :
    ∃ db' out, step lim db ev = some (db', out) ∧ Effect lim db ev db' out := by
  have hstep : ∀ o, Handled lim db ev o →
      ∃ db' out, (o.map fun r => (r.db, r.sent)) = some (db', out) ∧ Effect lim db ev db' out := by
    rintro o ⟨r, rfl, hr⟩
    exact ⟨r.db, r.sent, rfl, hr⟩
  cases ev with
  | disconnect c => exact hstep _ (logoutUser_effect h (.disconnect c) trivial)
  | msg c pm =>
    refine hstep _ ?_
    cases pm with
    | none => exact ⟨_, rfl, .rejected (.msg c none) .badCommand none⟩
    | some pm =>
      cases pm with
      | ack op name => exact ⟨_, rfl, .ignored _⟩
      | error et name => exact ⟨_, rfl, .ignored _⟩
      | status name st a => exact ⟨_, rfl, .ignored _⟩
      | op mop =>
        cases mop with
        | register n => exact registerUser_effect
        | login n => exact loginUser_effect h
        | logout => exact logoutUser_effect h (.msg c (some (.op .logout))) rfl
        | friendRequest n => exact friendRequest_effect h
        | friendRemove n => exact friendRemove_effect h
        | friendList => exact friendList_effect h
        | im n text => exact imUser_effect h
        | connect => exact ⟨_, rfl, .ignored _⟩

/-- A step that succeeded did so in one of those ways. -/
theorem effect_of_step (h : db.Rep) {ev : Event} {db' : Db} {out : List Sent}
    (hs : step lim db ev = some (db', out)) : Effect lim db ev db' out := by
  obtain ⟨db₁, out₁, hs₁, he⟩ := step_effect h lim ev
  obtain ⟨rfl, rfl⟩ : db₁ = db' ∧ out₁ = out := by simpa [hs₁] using hs
  exact he

/-- Every way to handle an event keeps the representation invariant. -/
theorem Effect.rep {ev : Event} {db' : Db} {out : List Sent} (he : Effect lim db ev db' out)
    (h : db.Rep) : db'.Rep := by
  cases he with
  | rejected => exact h
  | ignored => exact h
  | registered _ hn => exact h.append hn
  | loggedIn => exact h.rebind (by simp)
  | loggedOut => exact h.rebind (by simp)
  | asked hs hr hne hst =>
    exact h.ask (h.findUser_of_mem (Db.mem_of_findConn hs)) hr hne hst
  | befriended hs hr hne hst =>
    exact h.befriend (h.findUser_of_mem (Db.mem_of_findConn hs)) hr hne hst
  | parted hs hr hne =>
    exact h.part (h.findUser_of_mem (Db.mem_of_findConn hs)) hr hne
  | listed => exact h
  | delivered => exact h

/-- Only a registration changes the names, by adding one behind the others. -/
theorem Effect.names {ev : Event} {db' : Db} {out : List Sent} (he : Effect lim db ev db' out) :
    db'.names = db.names ∨ ∃ c n, ev = .msg c (some (.op (.register n))) ∧
      validUserName lim n = true ∧ n ∉ db.names ∧ db' = db.append n := by
  cases he with
  | rejected => exact Or.inl rfl
  | ignored => exact Or.inl rfl
  | @registered c n hv hn =>
    exact Or.inr ⟨c, n, rfl, hv, fun hmem => by simp [Db.mem_names, hn] at hmem, rfl⟩
  | loggedIn => exact Or.inl Db.names_rebind
  | loggedOut => exact Or.inl Db.names_rebind
  | asked => exact Or.inl (Db.names_relist _)
  | befriended => exact Or.inl (Db.names_relist _)
  | parted => exact Or.inl (Db.names_relist _)
  | listed => exact Or.inl rfl
  | delivered => exact Or.inl rfl

theorem Effect.mem_names {ev : Event} {db' : Db} {out : List Sent}
    (he : Effect lim db ev db' out) (hn : n ∈ db.names) : n ∈ db'.names := by
  rcases he.names with h | ⟨c, m, -, -, -, rfl⟩
  · rwa [h]
  · simp only [Db.names, Db.append, List.map_append]
    exact List.mem_append_left _ hn

theorem rep_step {ev : Event} {db' : Db} {out : List Sent} (h : db.Rep)
    (hs : step lim db ev = some (db', out)) : db'.Rep :=
  (effect_of_step h hs).rep h

theorem step_total (h : db.Rep) (lim : ImpLimits) (ev : Event) :
    ∃ db' out, step lim db ev = some (db', out) ∧ db'.Rep := by
  obtain ⟨db', out, hs, he⟩ := step_effect h lim ev
  exact ⟨db', out, hs, he.rep h⟩

/-! ## Every run -/

/-- The empty database, as `0 users:` loads it. -/
def Db.empty : Db :=
  ⟨[], 0⟩

/-- Whatever the connections send, in whatever order, no handler meets a NULL and the
representation invariant holds in every state reached. -/
theorem rep_of_run (h : db.Rep) (evs : List Event) :
    ∃ db' out, Machine.run (step lim) db evs = some (db', out) ∧ db'.Rep :=
  Machine.run_total (fun _ ev hdb => step_total hdb lim ev) h evs

/-- A run that starts from the empty database and binds one connection to two users. -/
theorem rep_of_run_empty : ∃ db' out, Machine.run (step impLimits) Db.empty
    [.msg 4 (some (.op (.register "alice".toList))), .msg 4 (some (.op (.register "bob".toList))),
      .msg 4 (some (.op (.login "alice".toList))), .msg 4 (some (.op (.login "bob".toList))),
      .msg 4 (some (.op (.friendRequest "bob".toList))), .disconnect 4] = some (db', out) ∧
        db'.Rep :=
  rep_of_run (by decide) _

/-- Two users active on the connections 4 and 5, with the given friend lists. -/
def Db.duo (la lb : List DbFriend) : Db :=
  ⟨[⟨"alice".toList, .yes, 4, la⟩, ⟨"bob".toList, .yes, 5, lb⟩], 2⟩

end Ims

end ClassProjects
