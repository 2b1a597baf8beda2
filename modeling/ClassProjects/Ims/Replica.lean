import ClassProjects.Ims.Binding
import ClassProjects.Ims.Notification
import ClassProjects.Lib.Replica

/-!
# What a client knows

A client gets no snapshot of the database, only the messages on its connection. `ClientView`
is the table of the other users that these messages build : a login clears it, and each
`STATUS` writes one entry.

While nobody logs in on a connection that is bound already, this table is at every moment the
view that the server has for the user bound to the connection (`clientView_of_run`), whatever
the client knew before. A step writes all that changed (`Notified.complete`) and nothing that
is not so (`Notified.sound`), and a login lists everything there is.
-/

namespace ClassProjects

namespace Ims

variable {lim : ImpLimits} {db db' : Db} {u v : DbUser} {n : CStr} {c : ℕ} {ev : Event}
  {out : List Sent} {ms : List ImpMsg}

/-! ## The table of a client -/

/-- How a client sees each user. -/
abbrev ClientView :=
  CStr → ImpFriend × ImpActive

/-- The entry a message writes. -/
def ImpMsg.viewEntry : ImpMsg → Option (CStr × ImpFriend × ImpActive)
  | .status userName st active => some (userName, st, active)
  | _ => none

/-- The table after a message. -/
def ClientView.hear (t : ClientView) : ImpMsg → ClientView
  | .ack .login _ => fun _ => (.not, .not)
  | m => Replica.write t m.viewEntry.toList

/-- The messages sent on a connection, in order. -/
def incoming (c : ℕ) (out : List Sent) : List ImpMsg :=
  (out.filter fun m => m.connfd = (c : ℤ)).map Sent.msg

theorem incoming_append (out out' : List Sent) :
    incoming c (out ++ out') = incoming c out ++ incoming c out' := by
  simp [incoming]

theorem mem_incoming {m : ImpMsg} : m ∈ incoming c out ↔ ⟨c, m⟩ ∈ out := by
  simp only [incoming, List.mem_map, List.mem_filter, decide_eq_true_eq]
  constructor
  · rintro ⟨⟨fd, m⟩, ⟨hm, rfl⟩, rfl⟩
    exact hm
  · exact fun hm => ⟨_, ⟨hm, rfl⟩, rfl⟩

/-- Without a login the messages write their entries. -/
theorem foldl_hear (t : ClientView) (h : ∀ m ∈ ms, ∀ n, m ≠ .ack .login n) :
    ms.foldl ClientView.hear t = Replica.write t (ms.filterMap ImpMsg.viewEntry) := by
  induction ms generalizing t with
  | nil => rfl
  | cons m ms ih =>
    obtain ⟨hm, hms⟩ := List.forall_mem_cons.1 h
    have hhear : t.hear m = Replica.write t m.viewEntry.toList := by
      unfold ClientView.hear
      split
      · exact absurd rfl (hm _)
      · rfl
    rw [List.foldl_cons, ih _ hms, hhear, ← Replica.write_append]
    cases hs : m.viewEntry <;> simp [hs]

/-! ## One step -/

/-- Only the user that a connection is bound to is bound to it. -/
theorem Db.Unique.eq (h : db.Unique) (hu : u ∈ db.users) (hv : v ∈ db.users)
    (huc : u.connfd = c) (hvc : v.connfd = c) : u = v := by
  have hle := h.bound c
  rw [Db.boundCount, List.countP_eq_length_filter] at hle
  have hmem : ∀ {x : DbUser}, x ∈ db.users → x.connfd = c →
      x ∈ db.users.filter fun u => u.connfd = (c : ℤ) :=
    fun hx hxc => List.mem_filter.2 ⟨hx, by simpa using hxc⟩
  rcases hl : db.users.filter fun u => u.connfd = (c : ℤ) with _ | ⟨x, _ | ⟨y, l⟩⟩
  · simpa [hl] using hmem hu huc
  · have hux := hl ▸ hmem hu huc
    have hvx := hl ▸ hmem hv hvc
    rw [List.mem_singleton.1 hux, List.mem_singleton.1 hvx]
  · rw [hl] at hle
    simp at hle

/-- A login is acknowledged on the connection it came from, and for an inactive user. -/
theorem login_of_ack (h : Effect lim db ev db' out) {m : Option CStr}
    (hm : ⟨c, .ack .login m⟩ ∈ out) : ∃ n u, ev = .msg c (some (.op (.login n))) ∧
      db.findUser n = some u ∧ u.active = .not := by
  have hboth : ∀ {d : ℕ} {r : DbUser} {m₁ m₂ : ImpMsg}, ⟨c, .ack .login m⟩ ∈ tellBoth d r m₁ m₂ →
      m₁ = .ack .login m ∨ m₂ = .ack .login m := by
    intro d r m₁ m₂ hmem
    rcases mem_tellBoth hmem with heq | heq
    · exact Or.inl (Sent.mk.inj heq).2.symm
    · exact Or.inr (Sent.mk.inj heq).2.symm
  cases h with
  | rejected => simp at hm
  | ignored => simp at hm
  | registered => simp at hm
  | @loggedIn d n u hu ha =>
    obtain ⟨hcd, -⟩ : (c : ℤ) = d ∧ m = some n := by
      simpa [ownStatus, Db.viewMsg] using hm
    obtain rfl : c = d := by omega
    exact ⟨n, u, rfl, hu, ha⟩
  | loggedOut => simp at hm
  | asked => rcases hboth hm with heq | heq <;> cases heq
  | befriended => rcases hboth hm with heq | heq <;> cases heq
  | parted => rcases hboth hm with heq | heq <;> cases heq
  | listed => simp [ownStatus, Db.viewMsg] at hm
  | delivered => simp at hm

/-- The entries that a step writes into the table of the user bound to the connection. -/
theorem says_sound (h : Notified db db' out) (hu : db'.Unique) (hv : v ∈ db'.users)
    (hvc : v.connfd = c) :
    ∀ e ∈ (incoming c out).filterMap ImpMsg.viewEntry, e.2 = db'.view v.name e.1 := by
  intro e he
  obtain ⟨m, hm, hsays⟩ := List.mem_filterMap.1 he
  have hm := mem_incoming.1 hm
  match m, hsays with
  | .status w st a, hsays =>
    obtain rfl := Option.some.inj hsays
    obtain ⟨x, hx, hxc, hview⟩ := h.sound _ hm w st a rfl
    rw [hu.eq hx hv hxc hvc] at hview
    exact hview.symm

/-- A user who stays bound to his connection is told of every view that changed. -/
theorem clientView_kept (h : Notified db db' out) (hu : db'.Unique) (hv : v ∈ db.users)
    {v' : DbUser} (hv' : v' ∈ db'.users) (hn : v'.name = v.name) (ha : v.active = .yes)
    (ha' : v'.active = .yes) (hc : v'.connfd = c)
    (hack : ∀ m ∈ incoming c out, ∀ n, m ≠ .ack .login n) :
    (incoming c out).foldl ClientView.hear (db.view v.name) = db'.view v.name := by
  rw [foldl_hear _ hack, ← hn]
  refine Replica.write_eq (says_sound h hu hv' hc) fun w hw => ?_
  rw [hn] at hw
  obtain ⟨hcc, hmsg⟩ := h.complete v hv v' hv' hn ha ha' w hw
  rw [← hcc, hc] at hmsg
  exact ⟨_, List.mem_filterMap.2 ⟨_, mem_incoming.2 hmsg, rfl⟩, rfl⟩

/-- A user who logs in is told everything, whatever his client knew. -/
theorem clientView_loggedIn (h : db.Rep) (hu : db.findUser n = some u) (ha : u.active = .not)
    (huniq : (db.rebind n .yes c).Unique) (t : ClientView) :
    (incoming c (⟨c, .ack .login (some n)⟩ :: ownStatus (db.rebind n .yes c) c u ++
      (activeFriends (db.rebind n .yes c) u.flist).map
        fun f => ⟨f.connfd, .status n .yes .yes⟩)).foldl ClientView.hear t =
      (db.rebind n .yes c).view n := by
  have hnot := notified_login (c := c) h hu ha
  obtain rfl := Db.name_of_findUser hu
  have hum := Db.mem_of_findUser hu
  have hu' : u.rebind .yes c ∈ (db.rebind u.name .yes c).users :=
    Db.mem_rebind.2 ⟨u, hum, by simp⟩
  have hsound := says_sound hnot huniq hu' rfl
  rw [List.cons_append, ← List.singleton_append, incoming_append, List.foldl_append] at *
  have hreset : (incoming c [⟨c, .ack .login (some u.name)⟩]).foldl ClientView.hear t =
      fun _ => (.not, .not) := by
    simp [incoming, ClientView.hear]
  rw [hreset, foldl_hear]
  · refine Replica.write_eq (fun e he => hsound e ?_) fun w hw => ?_
    · rw [List.filterMap_append]
      exact List.mem_append_right _ he
    · -- whoever is seen otherwise than before has an entry in the list
      have hrel : (db.rebind u.name .yes c).rel u.name w ≠ none := by
        intro hnone
        rw [Db.view_eq, hnone] at hw
        exact hw rfl
      rw [Db.rel_rebind, h.rel_eq hum] at hrel
      obtain ⟨st, hst⟩ := Option.ne_none_iff_exists'.1 hrel
      obtain ⟨e, he, hew, -⟩ := mem_of_statusOf hst
      refine ⟨_, List.mem_filterMap.2 ⟨(db.rebind u.name .yes c).viewMsg u.name w,
        mem_incoming.2 (List.mem_append_left _ (List.mem_map.2 ⟨e, he, ?_⟩)), rfl⟩, rfl⟩
      simp [hew]
  · intro m hm n
    rcases List.mem_append.1 (mem_incoming.1 hm) with hm | hm
    · obtain ⟨e, -, heq⟩ := List.mem_map.1 hm
      rw [← (Sent.mk.inj heq).2]
      exact ImpMsg.noConfusion
    · obtain ⟨f, -, heq⟩ := List.mem_map.1 hm
      rw [← (Sent.mk.inj heq).2]
      exact ImpMsg.noConfusion

/-! ## Logins on bound connections -/

/-- No login on a bound connection is accepted. -/
def NoSecondLogin (db : Db) : Event → Prop
  | .msg connfd (some (.op (.login userName))) =>
    (db.occupied connfd && (db.findUser userName).any fun ucur => ucur.active = .not) = false
  | _ => True

instance (db : Db) (ev : Event) : Decidable (NoSecondLogin db ev) :=
  match ev with
  | .msg connfd (some (.op (.login userName))) => inferInstanceAs (Decidable
    ((db.occupied connfd && (db.findUser userName).any fun ucur => ucur.active = .not) = false))
  | .msg _ (some (.op (.register _))) | .msg _ (some (.op .logout)) => isTrue trivial
  | .msg _ (some (.op (.friendRequest _))) | .msg _ (some (.op (.friendRemove _))) => isTrue trivial
  | .msg _ (some (.op .friendList)) | .msg _ (some (.op (.im _ _))) => isTrue trivial
  | .msg _ (some (.op .connect)) | .msg _ none | .msg _ (some (.ack _ _)) => isTrue trivial
  | .msg _ (some (.error _ _)) | .msg _ (some (.status _ _ _)) | .disconnect _ => isTrue trivial

theorem unique_append (h : db.Unique) (n : CStr) : (db.append n).Unique where
  active_iff u hu := by
    rcases List.mem_append.1 hu with hu | hu
    · exact h.active_iff u hu
    · simp [List.mem_singleton.1 hu, dbUserInit]
  bound c := by
    have hnew : (-1 : ℤ) ≠ c := by omega
    simpa [Db.boundCount, Db.append, dbUserInit, hnew] using h.bound c

theorem noSecond_of_login (hno : NoSecondLogin db ev)
    (hreg : ∀ c n, ev ≠ .msg c (some (.op (.register n)))) : NoSecond lim db ev := by
  match ev, hno with
  | .msg c (some (.op (.register n))), _ => exact absurd rfl (hreg c n)
  | .msg _ (some (.op (.login _))), hno => exact hno
  | .msg _ (some (.op .logout)), _ | .msg _ (some (.op (.friendRequest _))), _
  | .msg _ (some (.op (.friendRemove _))), _ | .msg _ (some (.op .friendList)), _
  | .msg _ (some (.op (.im _ _))), _ | .msg _ (some (.op .connect)), _ =>
    simp [NoSecond, acceptable]
  | .msg _ none, _ | .msg _ (some (.ack _ _)), _ | .msg _ (some (.error _ _)), _
  | .msg _ (some (.status _ _ _)), _ | .disconnect _, _ => trivial

/-- A registration on a bound connection binds nobody, so only logins matter. -/
theorem unique_step_login (h : db.Unique) (hno : NoSecondLogin db ev)
    (hs : step lim db ev = some (db', out)) : db'.Unique := by
  by_cases hreg : ∃ c n, ev = .msg c (some (.op (.register n)))
  · obtain ⟨c, n, rfl⟩ := hreg
    obtain rfl : (registerUser lim db n c).db = db' := (Prod.mk.inj (Option.some.inj hs)).1
    cases hacc : acceptable lim db (.register n) with
    | false =>
      obtain ⟨et, m, heq⟩ := registerUser_refused (c := c) hacc
      rw [heq]
      exact h
    | true =>
      obtain ⟨hv, hn⟩ : validUserName lim n = true ∧ db.findUser n = none := by
        simpa [acceptable] using hacc
      rw [registerUser_new hv hn]
      exact unique_append h n
  · exact unique_step h (noSecond_of_login hno fun c n he => hreg ⟨c, n, he⟩) hs

/-! ## Every run -/

/-- Behind the messages `out` the client on the connection knows the view of the user who is
bound to it. -/
structure Informed (c : ℕ) (db : Db) (out : List Sent) : Prop where
  rep : db.Rep
  unique : db.Unique
  views : ∀ v ∈ db.users, v.connfd = c → ∀ t : ClientView,
    (incoming c out).foldl ClientView.hear t = db.view v.name

theorem informed_step {out' : List Sent} (h : Informed c db out) (hno : NoSecondLogin db ev)
    (hs : step lim db ev = some (db', out')) : Informed c db' (out ++ out') := by
  have heff := effect_of_step h.rep hs
  have hrep' := heff.rep h.rep
  have huniq' := unique_step_login h.unique hno hs
  refine ⟨hrep', huniq', fun v hv hvc t => ?_⟩
  rw [incoming_append, List.foldl_append]
  have hva : v.active = .yes := hrep'.active_of_connfd hv hvc
  cases bound_of_step hs hv with
  | kept u hu hn ha hc =>
    have huc : u.connfd = c := hc ▸ hvc
    have hua : u.active = .yes := h.rep.active_of_connfd hu huc
    rw [h.views u hu huc t, hn]
    refine clientView_kept (notified_of_effect h.rep heff) huniq' hu hv hn hua hva hvc ?_
    rintro m hm n rfl
    -- the connection is bound, so no login on it is accepted
    obtain ⟨n', x, rfl, hx, hxa⟩ := login_of_ack heff (mem_incoming.1 hm)
    have hocc : db.occupied c = true :=
      List.any_eq_true.2 ⟨u, hu, by simp [hua, huc]⟩
    simp [NoSecondLogin, hocc, hx, hxa] at hno
  | unbound ha => simp [ha] at hva
  | loggedIn hev _ hc hack =>
    have hce : ev.connfd = c := by omega
    rw [hce] at hev hack
    subst hev
    obtain ⟨n, u, hevn, hu, hua⟩ := login_of_ack heff hack
    obtain rfl : v.name = n := by simpa using hevn
    have hstep := loginUser_eq (c := c) h.rep hu hua
    simp only [step, handleMsg, handleOp, hstep, Option.map_some, Option.some.injEq,
      Prod.mk.injEq] at hs
    obtain ⟨rfl, rfl⟩ := hs
    exact clientView_loggedIn h.rep hu hua huniq' _

/-- While no client that is logged in logs in as another user, what a client has been sent
since it connected makes its table the server's view for the user bound to the connection,
whatever the client knew before. -/
theorem clientView_of_run (h : db.Rep) (hu : db.Unique) (hnew : ∀ u ∈ db.users, u.connfd ≠ c)
    {evs : List Event} (hno : Machine.AllSteps (step lim) NoSecondLogin db evs)
    (hr : Machine.run (step lim) db evs = some (db', out)) (hv : v ∈ db'.users)
    (hc : v.connfd = c) (t : ClientView) :
    (incoming c out).foldl ClientView.hear t = db'.view v.name := by
  have hstart : Informed c db [] := ⟨h, hu, fun u hu huc => absurd huc (hnew u hu)⟩
  have hend := Machine.run_invariant_out_of_allSteps
    (fun _ _ _ _ _ hinf hC hs => informed_step hinf hC hs) hstart hno hr
  exact hend.views v hv hc t

/-- Alice and bob log in, become friends, and bob leaves. -/
def visit : List Event :=
  [.msg 4 (some (.op (.login "alice".toList))), .msg 5 (some (.op (.login "bob".toList))),
    .msg 4 (some (.op (.friendRequest "bob".toList))),
    .msg 5 (some (.op (.friendRequest "alice".toList))), .disconnect 5]

theorem clientView_of_run_visit : ∃ db' out,
    Machine.run (step impLimits) Db.offlineDuo visit = some (db', out) ∧
      ∀ t : ClientView, (incoming 4 out).foldl ClientView.hear t = db'.view "alice".toList := by
  refine ⟨_, _, rfl, fun t => ?_⟩
  exact @clientView_of_run impLimits Db.offlineDuo _
    ⟨"alice".toList, .yes, 4, [⟨some "bob".toList, .yes, yes_ne⟩]⟩ 4 _ (by decide)
    (Db.Offline.unique (by decide)) (by decide) visit (by decide) rfl (by decide) rfl t

end Ims

end ClassProjects
