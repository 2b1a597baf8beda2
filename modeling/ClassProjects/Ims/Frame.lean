import ClassProjects.Ims.HandlerSpec

/-!
# What the handlers leave alone

What a step can do to the database when nothing is known about the friend lists, so that
it also holds of a database that was loaded from any file. The friend operations relink
friend lists, with entries that were in a list or that point to a user (`Edit`). `Change`
adds the three edits of the user list, and `change_of_step` says that there are no others.
-/

namespace ClassProjects

namespace Ims

open KeyedList

variable {lim : ImpLimits} {db db' db'' : Db} {u s r : DbUser} {n : CStr} {c : ℕ}
  {o : Outcome} {l b t : List DbFriend} {e : DbFriend} {p : DbUser → Bool}

/-! ## The friend lists -/

/-- The entry points where an entry of the database does, or to a user by his name. -/
def Db.Points (db : Db) (e : DbFriend) : Prop :=
  (∃ u ∈ db.users, ∃ e' ∈ u.flist, e.friend = e'.friend) ∨ ∃ u ∈ db.users, e.friend = some u.name

/-- Relinkings of friend lists, one after the other. -/
inductive Edit (db : Db) : Db → Prop
  | refl : Edit db db
  | setFlist {db' : Db} (p : DbUser → Bool) (l : List DbFriend) (h : Edit db db')
    (hl : ∀ e ∈ l, db.Points e) : Edit db (db'.setFlist p l)

theorem scanFriend_eq_append (h : scanFriend n l = some (b, t)) : l = b ++ t := by
  induction l generalizing b t with
  | nil =>
    obtain ⟨rfl, rfl⟩ := Prod.mk.inj (Option.some.inj h)
    rfl
  | cons e l ih =>
    unfold scanFriend at h
    split at h
    · cases h
    · split_ifs at h
      · obtain ⟨rfl, rfl⟩ := Prod.mk.inj (Option.some.inj h)
        rfl
      · obtain ⟨⟨b', t'⟩, hr, heq⟩ := Option.map_eq_some_iff.1 h
        obtain ⟨rfl, rfl⟩ := Prod.mk.inj heq
        rw [ih hr, List.cons_append]

theorem Db.points_of_scanFriend (hu : u ∈ db.users) (h : scanFriend n u.flist = some (b, t)) :
    ∀ e ∈ b ++ t, db.Points e :=
  fun e he => Or.inl ⟨u, hu, e, by rwa [scanFriend_eq_append h], rfl⟩

/-- An entry that `dbFriendInit` makes for the name of a user points to a user. -/
theorem Db.points_dbFriendInit {st : ImpFriend} {hst : st ≠ .not} (hu : u ∈ db.users)
    (hn : db'.names = db.names) : db.Points (db'.dbFriendInit u.name st hst) := by
  have hmem : u.name ∈ db'.names := by
    rw [hn]
    exact List.mem_map_of_mem hu
  obtain ⟨v, hv⟩ := Db.mem_names.1 hmem
  refine Or.inr ⟨u, hu, ?_⟩
  simp [Db.dbFriendInit, hv, Db.name_of_findUser hv]

theorem Db.names_updateUser {f : DbUser → DbUser} (hf : ∀ u, (f u).name = u.name) :
    (db.updateUser p f).names = db.names := by
  have hall : ∀ us : List DbUser, (updateFirst p f us).map DbUser.name = us.map DbUser.name := by
    intro us
    induction us with
    | nil => rfl
    | cons u us ih =>
      unfold updateFirst
      split_ifs
      · rw [List.map_cons, List.map_cons, hf]
      · rw [List.map_cons, ih, List.map_cons]
  exact hall db.users

theorem Db.names_setFlist : (db.setFlist p l).names = db.names :=
  Db.names_updateUser fun _ => rfl

theorem edit_makeFriends (hs : s ∈ db.users) (hl : ∀ x ∈ b ++ e :: t, db.Points x)
    (h : makeFriends db c s r b e t = some db') : Edit db db' := by
  have hpoints : ∀ {b e t}, (∀ x ∈ b ++ e :: t, db.Points x) → ∀ st hst,
      ∀ x ∈ b ++ DbFriend.setStatus e st hst :: t, db.Points x := by
    intro b e t hl st hst x hx
    rcases List.mem_append.1 hx with hx | hx
    · exact hl x (List.mem_append_left _ hx)
    · rcases List.mem_cons.1 hx with rfl | hx
      · exact hl e (by simp)
      · exact hl x (by simp [hx])
  unfold makeFriends at h
  obtain ⟨⟨rb, rt⟩, hscan, h⟩ := Option.bind_eq_some_iff.1 h
  cases rt with
  | nil => cases h
  | cons rfcur rrest =>
    obtain rfl := Option.some.inj h
    have hpt := Db.points_of_scanFriend hs hscan
    exact .setFlist _ _ (.setFlist _ _ .refl (hpoints hl _ _)) (hpoints hpt _ _)

theorem edit_unlinkFriends (hs : s ∈ db.users) (hl : ∀ x ∈ b ++ t, db.Points x)
    (h : unlinkFriends db c s r b t = some db') : Edit db db' := by
  unfold unlinkFriends at h
  obtain ⟨⟨rb, rt⟩, hscan, h⟩ := Option.bind_eq_some_iff.1 h
  cases rt with
  | nil => cases h
  | cons rfcur rrest =>
    obtain rfl := Option.some.inj h
    have hpt := Db.points_of_scanFriend hs hscan
    refine .setFlist _ _ (.setFlist _ _ .refl hl) fun x hx => hpt x ?_
    rcases List.mem_append.1 hx with hx | hx
    · exact List.mem_append_left _ hx
    · exact List.mem_append_right _ (List.mem_cons_of_mem _ hx)

theorem edit_placeRequest (hs : s ∈ db.users) (hr : r ∈ db.users) (hl : ∀ x ∈ b, db.Points x) :
    Edit db (placeRequest db c s r b) := by
  refine .setFlist _ _ (.setFlist _ _ .refl fun x hx => ?_) fun x hx => ?_
  · rcases List.mem_append.1 hx with hx | hx
    · exact hl x hx
    · rw [List.mem_singleton.1 hx]
      exact Db.points_dbFriendInit hs rfl
  · rcases List.mem_append.1 hx with hx | hx
    · exact Or.inl ⟨s, hs, x, hx, rfl⟩
    · rw [List.mem_singleton.1 hx]
      exact Db.points_dbFriendInit hr Db.names_setFlist

theorem edit_friendRequest (h : friendRequest db n c = some o) : Edit db o.db := by
  unfold friendRequest at h
  split at h
  · obtain rfl := Option.some.inj h
    exact .refl
  rename_i s hs
  split_ifs at h
  · obtain rfl := Option.some.inj h
    exact .refl
  split at h
  · obtain rfl := Option.some.inj h
    exact .refl
  rename_i r hr
  have hsm := Db.mem_of_findConn hs
  have hrm := Db.mem_of_findUser hr
  obtain ⟨⟨b, t⟩, hscan, h⟩ := Option.bind_eq_some_iff.1 h
  have hpt := Db.points_of_scanFriend hrm hscan
  cases t with
  | nil =>
    obtain rfl := Option.some.inj h
    exact edit_placeRequest hsm hrm (by simpa using hpt)
  | cons e t =>
    dsimp only at h
    split at h
    · obtain rfl := Option.some.inj h
      exact .refl
    · obtain ⟨db', hdb, h⟩ := Option.bind_eq_some_iff.1 h
      obtain rfl := Option.some.inj h
      exact edit_makeFriends hsm hpt hdb
    · obtain rfl := Option.some.inj h
      exact .refl

theorem edit_friendRemove (h : friendRemove db n c = some o) : Edit db o.db := by
  unfold friendRemove at h
  split at h
  · obtain rfl := Option.some.inj h
    exact .refl
  rename_i s hs
  split_ifs at h
  · obtain rfl := Option.some.inj h
    exact .refl
  split at h
  · obtain rfl := Option.some.inj h
    exact .refl
  rename_i r hr
  obtain ⟨⟨b, t⟩, hscan, h⟩ := Option.bind_eq_some_iff.1 h
  have hpt := Db.points_of_scanFriend (Db.mem_of_findUser hr) hscan
  cases t with
  | nil =>
    obtain rfl := Option.some.inj h
    exact .refl
  | cons e t =>
    obtain ⟨db', hdb, h⟩ := Option.bind_eq_some_iff.1 h
    obtain rfl := Option.some.inj h
    refine edit_unlinkFriends (Db.mem_of_findConn hs) (fun x hx => hpt x ?_) hdb
    rcases List.mem_append.1 hx with hx | hx
    · exact List.mem_append_left _ hx
    · exact List.mem_append_right _ (List.mem_cons_of_mem _ hx)

theorem db_of_friendList (h : friendList db c = some o) : o.db = db := by
  unfold friendList at h
  split at h
  · obtain rfl := Option.some.inj h
    rfl
  · obtain ⟨-, -, rfl⟩ := Option.map_eq_some_iff.1 h
    rfl

theorem db_of_imUser {text : CStr} (h : imUser lim db n text c = some o) : o.db = db := by
  unfold imUser at h
  split at h
  · obtain rfl := Option.some.inj h
    rfl
  split at h
  · obtain rfl := Option.some.inj h
    rfl
  obtain ⟨⟨b, t⟩, -, h⟩ := Option.bind_eq_some_iff.1 h
  dsimp only at h
  split_ifs at h <;> obtain rfl := Option.some.inj h <;> rfl

/-! ## The user list -/

/-- A login fails, or binds the first user with the name and is acknowledged. -/
theorem loginUser_cases (h : loginUser db n c = some o) : o.db = db ∨
    (o.db = db.updateUser (fun u => u.name = n) fun u => u.rebind .yes c) ∧
      ⟨c, .ack .login (some n)⟩ ∈ o.sent := by
  unfold loginUser at h
  split at h
  · obtain rfl := Option.some.inj h
    exact Or.inl rfl
  split_ifs at h
  · obtain rfl := Option.some.inj h
    exact Or.inl rfl
  · obtain rfl := Option.some.inj h
    exact Or.inl rfl
  · obtain ⟨own, -, h⟩ := Option.bind_eq_some_iff.1 h
    obtain ⟨friends, -, h⟩ := Option.bind_eq_some_iff.1 h
    obtain rfl := Option.some.inj h
    exact Or.inr ⟨rfl, List.mem_cons_self⟩

/-- A logout finds no active user, or unbinds the first user of the connection. -/
theorem logoutUser_cases (h : logoutUser db c = some o) :
    o.db = db ∧ (∀ u, db.findConn c = some u → u.active = .not) ∨
      ∃ u, db.findConn c = some u ∧
        o.db = db.updateUser (fun u => u.connfd = c) fun u => u.rebind .not (-1) := by
  unfold logoutUser at h
  split at h
  · rename_i hc
    obtain rfl := Option.some.inj h
    exact Or.inl ⟨rfl, by simp [hc]⟩
  · rename_i u hc
    split_ifs at h with ha
    · obtain rfl := Option.some.inj h
      exact Or.inl ⟨rfl, by simp [hc, ha]⟩
    · obtain ⟨friends, -, h⟩ := Option.bind_eq_some_iff.1 h
      obtain rfl := Option.some.inj h
      exact Or.inr ⟨u, hc, rfl⟩

/-- A registration fails, as the name is not valid or not new, or links a new user. -/
theorem registerUser_cases : (registerUser lim db n c).db = db ∧
      (validUserName lim n = false ∨ n ∈ db.names) ∨
    validUserName lim n = true ∧ db.findUser n = none ∧
      (registerUser lim db n c).db = db.append n := by
  cases hv : validUserName lim n with
  | false => exact Or.inl ⟨by simp [registerUser, hv, answerError], Or.inl rfl⟩
  | true =>
    cases hn : db.findUser n with
    | none => exact Or.inr ⟨rfl, rfl, by rw [registerUser_new hv hn]⟩
    | some u =>
      refine Or.inl ⟨?_, Or.inr (Db.mem_names.2 ⟨u, hn⟩)⟩
      by_cases hc : u.connfd = c <;> simp [registerUser, hv, hn, hc, answerError]

/-! ## Every step -/

/-- The ways the database can change in a step. -/
inductive Change (lim : ImpLimits) (db : Db) : Event → List Sent → Db → Prop
  | edited {ev : Event} {out : List Sent} {db' : Db} (h : Edit db db')
    (hreg : ∀ c n, ev = .msg c (some (.op (.register n))) →
      validUserName lim n = false ∨ n ∈ db.names) : Change lim db ev out db'
  | registered {c : ℕ} {n : CStr} {out : List Sent} (hv : validUserName lim n = true)
    (hn : db.findUser n = none) :
    Change lim db (.msg c (some (.op (.register n)))) out (db.append n)
  | loggedIn {c : ℕ} {n : CStr} {out : List Sent} (hack : ⟨c, .ack .login (some n)⟩ ∈ out) :
    Change lim db (.msg c (some (.op (.login n)))) out
      (db.updateUser (fun u => u.name = n) fun u => u.rebind .yes c)
  | loggedOut {ev : Event} {out : List Sent} (hev : ev.isLogout) :
    Change lim db ev out
      (db.updateUser (fun u => u.connfd = ev.connfd) fun u => u.rebind .not (-1))

theorem change_of_registerUser : Change lim db (.msg c (some (.op (.register n))))
    (registerUser lim db n c).sent (registerUser lim db n c).db := by
  rcases registerUser_cases (c := c) with ⟨hdb, hn⟩ | ⟨hv, hn, hdb⟩ <;> rw [hdb]
  · refine .edited .refl fun c' n' hev => ?_
    obtain ⟨-, hpm⟩ := Event.msg.inj hev
    obtain rfl : n = n' := by simpa using hpm
    exact hn
  · exact .registered hv hn

theorem change_of_logoutUser {ev : Event} (hev : ev.isLogout)
    (h : logoutUser db ev.connfd = some o) : Change lim db ev o.sent o.db := by
  rcases logoutUser_cases h with ⟨hdb, -⟩ | ⟨u, -, hdb⟩ <;> rw [hdb]
  · refine .edited .refl fun c n heq => ?_
    rw [heq] at hev
    cases hev
  · exact .loggedOut hev

theorem change_of_loginUser (h : loginUser db n c = some o) :
    Change lim db (.msg c (some (.op (.login n)))) o.sent o.db := by
  rcases loginUser_cases h with hdb | ⟨hdb, hack⟩ <;> rw [hdb]
  · exact .edited .refl (by simp)
  · exact .loggedIn hack

/-- Every step that succeeds changes the database in one of those ways. -/
theorem change_of_step {ev : Event} {out : List Sent} (hs : step lim db ev = some (db', out)) :
    Change lim db ev out db' := by
  cases ev with
  | disconnect c =>
    obtain ⟨o, ho, hr⟩ := Option.map_eq_some_iff.1 hs
    obtain ⟨rfl, rfl⟩ := Prod.mk.inj hr
    exact change_of_logoutUser trivial ho
  | msg c pm =>
    obtain ⟨o, ho, hr⟩ := Option.map_eq_some_iff.1 hs
    obtain ⟨rfl, rfl⟩ := Prod.mk.inj hr
    cases pm with
    | none =>
      obtain rfl := Option.some.inj ho
      exact .edited .refl (by simp)
    | some pm =>
      cases pm with
      | ack op name | error et name | status name st a =>
        obtain rfl := Option.some.inj ho
        exact .edited .refl (by simp)
      | op mop =>
        cases mop with
        | register n =>
          obtain rfl := Option.some.inj ho
          exact change_of_registerUser
        | login n => exact change_of_loginUser ho
        | logout => exact change_of_logoutUser rfl ho
        | friendRequest n => exact .edited (edit_friendRequest ho) (by simp)
        | friendRemove n => exact .edited (edit_friendRemove ho) (by simp)
        | friendList =>
          rw [db_of_friendList ho]
          exact .edited .refl (by simp)
        | im n text =>
          rw [db_of_imUser ho]
          exact .edited .refl (by simp)
        | connect =>
          obtain rfl := Option.some.inj ho
          exact .edited .refl (by simp)

end Ims

end ClassProjects
