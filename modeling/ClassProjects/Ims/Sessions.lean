import ClassProjects.Ims.Frame

/-!
# Client sessions

The server with its clients : a connection is accepted, on a descriptor that is not open,
has its messages handled, and is logged out and closed. Each open connection carries the
names it has logged in as since it was accepted.

The sessions are isolated (`Server.Isolated`) if every active user is bound to an open
connection, and a connection only to users it logged in as. `logoutUser` unbinds one user,
so closing a connection that two users are bound to leaves the second bound to whoever is
accepted on the descriptor next (`not_isolates`). A run whose connections each have at most
one user when they close is isolated throughout, and no other run is (`isolates_iff`).

Nothing here depends on the friend lists, so the representation invariant is not needed.
-/

namespace ClassProjects

namespace Ims

open KeyedList

variable {lim : ImpLimits} {db db' : Db} {u v s r : DbUser} {n : CStr} {c : ℕ}
  {o : Outcome}

/-! ## The bindings after a step -/

/-- The binding of a user after a message or a logout : the one he had, none, or a login on
the connection that was acknowledged. -/
inductive Bound (db : Db) (ev : Event) (out : List Sent) (v : DbUser) : Prop
  | kept (u : DbUser) (hu : u ∈ db.users) (hn : v.name = u.name) (ha : v.active = u.active)
    (hc : v.connfd = u.connfd)
  | unbound (ha : v.active = .not) (hc : v.connfd = -1)
  | loggedIn (hev : ev = .msg ev.connfd (some (.op (.login v.name)))) (ha : v.active = .yes)
    (hc : v.connfd = ev.connfd) (hack : ⟨ev.connfd, .ack .login (some v.name)⟩ ∈ out)

/-- The friend operations leave the bindings alone. -/
theorem binding_of_edit (h : Edit db db') (hv : v ∈ db'.users) :
    ∃ u ∈ db.users, v.name = u.name ∧ v.active = u.active ∧ v.connfd = u.connfd := by
  induction h generalizing v with
  | refl => exact ⟨v, hv, rfl, rfl, rfl⟩
  | setFlist p l _ _ ih =>
    rcases mem_updateFirst hv with hv | ⟨w, hw, rfl⟩
    · exact ih hv
    · obtain ⟨u, hu, heq⟩ := ih (List.mem_of_find?_eq_some hw)
      exact ⟨u, hu, heq⟩

theorem bound_of_step {ev : Event} {out : List Sent} (hs : step lim db ev = some (db', out))
    (hv : v ∈ db'.users) : Bound db ev out v := by
  cases change_of_step hs with
  | edited h =>
    obtain ⟨u, hu, hn, ha, hc⟩ := binding_of_edit h hv
    exact .kept u hu hn ha hc
  | registered _ _ =>
    rcases List.mem_append.1 hv with hv | hv
    · exact .kept v hv rfl rfl rfl
    · obtain rfl := List.mem_singleton.1 hv
      exact .unbound rfl rfl
  | loggedIn hack =>
    rcases mem_updateFirst hv with hv | ⟨u, hu, rfl⟩
    · exact .kept v hv rfl rfl rfl
    · obtain rfl := Db.name_of_findUser hu
      exact .loggedIn rfl rfl rfl hack
  | loggedOut _ =>
    rcases mem_updateFirst hv with hv | ⟨u, -, rfl⟩
    · exact .kept v hv rfl rfl rfl
    · exact .unbound rfl rfl

/-! ## The server and its clients -/

/-- An open connection, with the names it has logged in as since it was accepted. -/
structure Session where
  connfd : ℕ
  loggedIn : List CStr
deriving DecidableEq

/-- The database and the open connections. -/
structure Server where
  db : Db
  sessions : List Session
deriving DecidableEq

/-- What happens at the server : a client connects, one of its messages is handled, or its
stream ends. -/
inductive ConnEvent
  | accept (connfd : ℕ)
  | recv (connfd : ℕ) (pm : Option ImpMsg)
  | close (connfd : ℕ)
deriving DecidableEq

/-- The session after a message of its client. -/
def Session.note (out : List Sent) (pm : Option ImpMsg) (s : Session) : Session :=
  match pm with
  | some (.op (.login userName)) =>
    if ⟨s.connfd, .ack .login (some userName)⟩ ∈ out then
      { s with loggedIn := userName :: s.loggedIn } else s
  | _ => s

/-- One event. A descriptor is accepted only while it is not open, and `userThread` reads
and closes only its own, which is open. -/
def Server.step (lim : ImpLimits) (srv : Server) : ConnEvent → Option (Server × List Sent)
  | .accept connfd =>
    if connfd ∈ srv.sessions.map Session.connfd then none
    else some (⟨srv.db, srv.sessions ++ [⟨connfd, []⟩]⟩, [⟨connfd, .ack .connect none⟩])
  | .recv connfd pm =>
    if connfd ∈ srv.sessions.map Session.connfd then
      (Ims.step lim srv.db (.msg connfd pm)).map fun r =>
        (⟨r.1, srv.sessions.map fun s => if s.connfd = connfd then s.note r.2 pm else s⟩, r.2)
    else none
  | .close connfd =>
    if connfd ∈ srv.sessions.map Session.connfd then
      (Ims.step lim srv.db (.disconnect connfd)).map fun r =>
        (⟨r.1, srv.sessions.filter fun s => s.connfd ≠ connfd⟩, r.2)
    else none

/-! ## Isolation -/

/-- No user is bound to a connection that is not open, and no session acts as a user it
has not logged in as. -/
structure Server.Isolated (srv : Server) : Prop where
  bound_open : ∀ u ∈ srv.db.users, u.active = .yes → ∃ s ∈ srv.sessions, u.connfd = s.connfd
  acts : ∀ s ∈ srv.sessions, ∀ u ∈ srv.db.users, u.connfd = s.connfd → u.name ∈ s.loggedIn

/-- An event keeps the sessions isolated : a connection is new when it is accepted, its
messages are handled for users it logged in as, and nobody is active on it after it is
closed. -/
def Isolates (lim : ImpLimits) (srv : Server) (ev : ConnEvent) : Prop :=
  ∀ srv' out, srv.step lim ev = some (srv', out) → srv'.Isolated ∧
    match ev with
    | .accept connfd => ∀ u ∈ srv.db.users, u.connfd ≠ connfd
    | .recv connfd _ => ∀ u, srv.db.findConn connfd = some u →
      ∃ s ∈ srv.sessions, s.connfd = connfd ∧ u.name ∈ s.loggedIn
    | .close connfd => ∀ u ∈ srv'.db.users, u.active = .yes → u.connfd ≠ connfd

/-- How many users are bound to the connection. -/
def Db.boundCount (db : Db) (connfd : ℕ) : ℕ :=
  db.users.countP fun u => u.connfd = (connfd : ℤ)

/-- At most one user is bound to a connection when it is closed. -/
def ClosesOne (srv : Server) : ConnEvent → Prop
  | .close connfd => srv.db.boundCount connfd ≤ 1
  | _ => True

instance (srv : Server) (ev : ConnEvent) : Decidable (ClosesOne srv ev) :=
  match ev with
  | .close connfd => inferInstanceAs (Decidable (srv.db.boundCount connfd ≤ 1))
  | .accept _ => isTrue trivial
  | .recv _ _ => isTrue trivial

/-- What an isolated run keeps. -/
structure Server.Inv (srv : Server) : Prop extends srv.Isolated where
  active_iff : ∀ u ∈ srv.db.users, u.active = .yes ↔ u.connfd ≠ -1
  connfds : (srv.sessions.map Session.connfd).Nodup

variable {srv srv' : Server} {out : List Sent}

theorem Server.Inv.not_bound (h : srv.Inv) (hc : c ∉ srv.sessions.map Session.connfd)
    (hu : u ∈ srv.db.users) : u.connfd ≠ c := by
  intro huc
  have ha : u.active = .yes := (h.active_iff u hu).2 (by omega)
  obtain ⟨s, hs, hus⟩ := h.bound_open u hu ha
  exact hc (List.mem_map.2 ⟨s, hs, by omega⟩)

/-- A logout leaves nobody bound to the connection exactly when at most one user was. -/
theorem logoutUser_unbinds (h : logoutUser db c = some o)
    (hact : ∀ u ∈ db.users, u.active = .yes ↔ u.connfd ≠ -1) :
    db.boundCount c ≤ 1 ↔ ∀ u ∈ o.db.users, u.connfd ≠ c := by
  have hzero : ∀ l : List DbUser,
      (l.countP fun u => u.connfd = (c : ℤ)) = 0 ↔ ∀ u ∈ l, u.connfd ≠ c := by
    intro l
    simp [List.countP_eq_zero]
  rcases logoutUser_cases h with ⟨hdb, hinactive⟩ | ⟨u, hu, hdb⟩
  · have hnone : db.boundCount c = 0 := by
      refine (hzero _).2 fun v hv hvc => ?_
      have hsome : (db.findConn c).isSome := List.find?_isSome.2 ⟨v, hv, by simpa using hvc⟩
      obtain ⟨u, hu⟩ := Option.isSome_iff_exists.1 hsome
      have huc := Db.connfd_of_findConn hu
      have ha := (hact u (Db.mem_of_findConn hu)).2 (by omega)
      rw [hinactive u hu] at ha
      cases ha
    rw [hdb]
    exact iff_of_true (by omega) ((hzero _).1 hnone)
  · obtain ⟨b, t, hl, hb, hupd⟩ := updateFirst_split (f := fun u => u.rebind .not (-1)) hu
    have hb' : ∀ u ∈ b, u.connfd ≠ c := by simpa using hb
    have hcount : db.boundCount c = 1 + t.countP fun u => u.connfd = (c : ℤ) := by
      rw [Db.boundCount, hl, List.countP_append, (hzero b).2 hb', List.countP_cons,
        if_pos (by simpa using Db.connfd_of_findConn hu)]
      omega
    have hafter : (∀ u ∈ o.db.users, u.connfd ≠ c) ↔ ∀ u ∈ t, u.connfd ≠ c := by
      rw [hdb, Db.updateUser, hupd]
      constructor
      · exact fun h u hu => h u (by simp [hu])
      · intro ht u hu
        rcases List.mem_append.1 hu with hu | hu
        · exact hb' u hu
        · rcases List.mem_cons.1 hu with rfl | hu
          · simp only [DbUser.rebind]
            omega
          · exact ht u hu
    rw [hafter, hcount, ← hzero]
    omega

/-! ## One event -/

theorem inv_accept (h : srv.Inv) (hc : c ∉ srv.sessions.map Session.connfd) :
    Server.Inv ⟨srv.db, srv.sessions ++ [⟨c, []⟩]⟩ where
  bound_open u hu ha := by
    obtain ⟨s, hs, hus⟩ := h.bound_open u hu ha
    exact ⟨s, List.mem_append_left _ hs, hus⟩
  acts s hs u hu hus := by
    rcases List.mem_append.1 hs with hs | hs
    · exact h.acts s hs u hu hus
    · obtain rfl := List.mem_singleton.1 hs
      exact absurd hus (h.not_bound hc hu)
  active_iff := h.active_iff
  connfds := by
    rw [List.map_append, List.nodup_append]
    refine ⟨h.connfds, by simp, fun a ha b hb hab => hc ?_⟩
    obtain rfl := List.mem_singleton.1 hb
    exact hab ▸ ha

theorem active_iff_of_step {ev : Event} (hact : ∀ u ∈ db.users, u.active = .yes ↔ u.connfd ≠ -1)
    (hs : step lim db ev = some (db', out)) :
    ∀ u ∈ db'.users, u.active = .yes ↔ u.connfd ≠ -1 := by
  intro v hv
  cases bound_of_step hs hv with
  | kept u hu _ ha hc =>
    rw [ha, hc]
    exact hact u hu
  | unbound ha hc => simp [ha, hc]
  | loggedIn _ ha hc => simp [ha, hc]

@[simp] theorem Session.connfd_note {pm : Option ImpMsg} (s : Session) :
    (s.note out pm).connfd = s.connfd := by
  unfold Session.note
  split
  · split_ifs <;> rfl
  · rfl

theorem Session.mem_note {pm : Option ImpMsg} {s : Session} (hn : n ∈ s.loggedIn) :
    n ∈ (s.note out pm).loggedIn := by
  unfold Session.note
  split
  · split_ifs
    · exact List.mem_cons_of_mem _ hn
    · exact hn
  · exact hn

theorem inv_recv (h : srv.Inv) {pm : Option ImpMsg} (hc : c ∈ srv.sessions.map Session.connfd)
    (hs : step lim srv.db (.msg c pm) = some (db', out)) :
    Server.Inv ⟨db', srv.sessions.map fun s => if s.connfd = c then s.note out pm else s⟩ := by
  have hconnfd : ∀ s : Session, (if s.connfd = c then s.note out pm else s).connfd = s.connfd := by
    intro s
    split_ifs <;> simp
  refine ⟨⟨fun v hv hva => ?_, fun s' hs' v hv hvs => ?_⟩, active_iff_of_step h.active_iff hs, ?_⟩
  · cases bound_of_step hs hv with
    | kept u hu _ ha hvc =>
      obtain ⟨s, hs, hus⟩ := h.bound_open u hu (ha ▸ hva)
      exact ⟨_, List.mem_map_of_mem hs, by rw [hconnfd, hvc, hus]⟩
    | unbound ha =>
      rw [ha] at hva
      cases hva
    | loggedIn _ _ hvc =>
      obtain ⟨s, hsm, rfl⟩ := List.mem_map.1 hc
      exact ⟨_, List.mem_map_of_mem hsm, by rw [hconnfd, hvc]; rfl⟩
  · obtain ⟨s, hsm, rfl⟩ := List.mem_map.1 hs'
    rw [hconnfd] at hvs
    cases bound_of_step hs hv with
    | kept u hu hn _ hvc =>
      have hmem : u.name ∈ s.loggedIn := h.acts s hsm u hu (hvc ▸ hvs)
      rw [hn]
      split_ifs
      · exact Session.mem_note hmem
      · exact hmem
    | unbound _ hvc => omega
    | loggedIn hev _ hvc hack =>
      obtain ⟨-, rfl⟩ := Event.msg.inj hev
      have hsc : s.connfd = c := by
        simp only [Event.connfd] at hvc
        omega
      simp only [Event.connfd] at hack
      simp [hsc, Session.note, hack]
  · rw [List.map_map]
    simpa [Function.comp_def, hconnfd] using h.connfds

theorem inv_close (h : srv.Inv) (hs : step lim srv.db (.disconnect c) = some (db', out))
    (hone : ∀ u ∈ db'.users, u.connfd ≠ c) :
    Server.Inv ⟨db', srv.sessions.filter fun s => s.connfd ≠ c⟩ := by
  refine ⟨⟨fun v hv hva => ?_, fun s hsm v hv hvs => ?_⟩, active_iff_of_step h.active_iff hs,
    (List.filter_sublist.map _).nodup h.connfds⟩
  · cases bound_of_step hs hv with
    | kept u hu _ ha hvc =>
      obtain ⟨s, hs, hus⟩ := h.bound_open u hu (ha ▸ hva)
      refine ⟨s, List.mem_filter.2 ⟨hs, ?_⟩, by rw [hvc, hus]⟩
      have := hone v hv
      simp only [decide_eq_true_eq]
      omega
    | unbound ha =>
      rw [ha] at hva
      cases hva
    | loggedIn hev => cases hev
  · cases bound_of_step hs hv with
    | kept u hu hn _ hvc =>
      rw [hn]
      exact h.acts s (List.mem_of_mem_filter hsm) u hu (hvc ▸ hvs)
    | unbound _ hvc => omega
    | loggedIn hev => cases hev

/-- What closing a connection does, and what it takes to leave nobody bound to it. -/
theorem step_close (h : srv.Inv) (hs : srv.step lim (.close c) = some (srv', out)) :
    (ClosesOne srv (.close c) ↔ ∀ u ∈ srv'.db.users, u.connfd ≠ c) ∧
      ((∀ u ∈ srv'.db.users, u.connfd ≠ c) → srv'.Inv) ∧
      ∀ u ∈ srv'.db.users, u.active = .yes ↔ u.connfd ≠ -1 := by
  simp only [Server.step, Option.ite_none_right_eq_some, Option.map_eq_some_iff,
    Prod.mk.injEq] at hs
  obtain ⟨-, ⟨db', out'⟩, hs, rfl, -⟩ := hs
  refine ⟨?_, inv_close h hs, active_iff_of_step h.active_iff hs⟩
  obtain ⟨o, ho, hr⟩ := Option.map_eq_some_iff.1 hs
  obtain ⟨rfl, -⟩ := Prod.mk.inj hr
  exact logoutUser_unbinds ho h.active_iff

/-- Under the invariant a step isolates exactly when it closes no connection with two
users, and then the invariant is kept. -/
theorem isolates_step (h : srv.Inv) {ev : ConnEvent} (hs : srv.step lim ev = some (srv', out)) :
    (Isolates lim srv ev ↔ ClosesOne srv ev) ∧ (ClosesOne srv ev → srv'.Inv) := by
  have honly : ∀ {P : Server → Prop}, (∀ srv' out, srv.step lim ev = some (srv', out) → P srv') ↔
      P srv' := by
    simp [hs]
  cases ev with
  | accept c =>
    rw [Isolates, honly]
    simp only [Server.step, Option.ite_none_left_eq_some, Option.some.injEq, Prod.mk.injEq] at hs
    obtain ⟨hc, rfl, -⟩ := hs
    have hinv := inv_accept h hc
    exact ⟨iff_of_true ⟨hinv.toIsolated, fun u hu => h.not_bound hc hu⟩ trivial, fun _ => hinv⟩
  | recv c pm =>
    rw [Isolates, honly]
    simp only [Server.step, Option.ite_none_right_eq_some, Option.map_eq_some_iff,
      Prod.mk.injEq] at hs
    obtain ⟨hc, ⟨db', out'⟩, hs, rfl, -⟩ := hs
    have hinv := inv_recv h hc hs
    refine ⟨iff_of_true ⟨hinv.toIsolated, fun u hu => ?_⟩ trivial, fun _ => hinv⟩
    obtain ⟨s, hsm, rfl⟩ := List.mem_map.1 hc
    exact ⟨s, hsm, rfl, h.acts s hsm u (Db.mem_of_findConn hu) (Db.connfd_of_findConn hu)⟩
  | close c =>
    rw [Isolates, honly]
    obtain ⟨hone, hinv, hact⟩ := step_close h hs
    rw [hone]
    refine ⟨⟨fun ⟨_, hno⟩ u hu huc => ?_, fun hno => ?_⟩, hinv⟩
    · -- whoever is still bound to the connection is active on it
      exact hno u hu ((hact u hu).2 (by omega)) huc
    · exact ⟨(hinv hno).toIsolated, fun u hu _ => hno u hu⟩

/-! ## Every run -/

/-- The database as it is when the server starts : nobody is active. -/
def Db.Offline (db : Db) : Prop :=
  ∀ u ∈ db.users, u.active = .not ∧ u.connfd = -1

instance (db : Db) : Decidable db.Offline :=
  inferInstanceAs (Decidable (∀ u ∈ db.users, _))

theorem Db.Offline.inv (h : db.Offline) : Server.Inv ⟨db, []⟩ where
  bound_open u hu ha := by simp [h u hu] at ha
  acts s hs := by simp at hs
  active_iff u hu := by simp [h u hu]
  connfds := List.nodup_nil

/-- From the start of the server on, a run isolates its sessions at every step exactly
when no connection is closed with two users bound to it. -/
theorem isolates_iff (h : db.Offline) {evs : List ConnEvent}
    (hr : Machine.run (Server.step lim) ⟨db, []⟩ evs = some (srv', out)) :
    Machine.AllSteps (Server.step lim) (Isolates lim) ⟨db, []⟩ evs ↔
      Machine.AllSteps (Server.step lim) ClosesOne ⟨db, []⟩ evs :=
  Machine.allSteps_congr (fun _ _ _ _ hinv hs => (isolates_step hinv hs).1)
    (fun _ _ _ _ hinv hC hs => (isolates_step hinv hs).2 ((isolates_step hinv hs).1.1 hC)) h.inv hr

/-- Two users without connections. -/
def Db.offlineDuo : Db :=
  ⟨[dbUserInit "alice".toList, dbUserInit "bob".toList], 2⟩

/-- A descriptor that is used again after its user's connection was closed. -/
theorem isolates_reuse : Machine.AllSteps (Server.step impLimits) (Isolates impLimits)
    ⟨Db.offlineDuo, []⟩ [.accept 4, .recv 4 (some (.op (.login "alice".toList))), .close 4,
      .accept 4, .recv 4 (some (.op .friendList))] :=
  (isolates_iff (by decide) rfl).2 (by decide)

/-- A client logs in as two users and leaves. The next client on the descriptor acts as the
second of them without a login. -/
theorem not_isolates : ¬∀ (db : Db) (evs : List ConnEvent) (srv : Server) (out : List Sent),
    db.Offline → Machine.run (Server.step impLimits) ⟨db, []⟩ evs = some (srv, out) →
      Machine.AllSteps (Server.step impLimits) (Isolates impLimits) ⟨db, []⟩ evs := by
  intro h
  have hall := Machine.allSteps_iff.1 (h Db.offlineDuo
    [.accept 4, .recv 4 (some (.op (.login "alice".toList))),
      .recv 4 (some (.op (.login "bob".toList))), .close 4, .accept 4,
      .recv 4 (some (.op (.friendRequest "alice".toList)))] _ _ (by decide) rfl)
  have hrecv := hall [.accept 4, .recv 4 (some (.op (.login "alice".toList))),
      .recv 4 (some (.op (.login "bob".toList))), .close 4, .accept 4]
    (.recv 4 (some (.op (.friendRequest "alice".toList)))) [] rfl _ _ rfl
  obtain ⟨s, hs, -, hn⟩ := (hrecv _ _ rfl).2 _ rfl
  revert hn
  revert s
  decide

end Ims

end ClassProjects
