import ClassProjects.Ims.HandlerSpec
import ClassProjects.Lib.TwoPhase

/-!
# Concurrent logins

`loginUser` and `logoutUser` look for their user, and at his `active`, before `sem_wait` ; the
section that the semaphore guards assigns to the node they found. A handler is the two steps
of `Lib/TwoPhase`, with what it remembers the user's name, since user nodes are never freed.
The messages behind a section are sent with it.

`session_serial` : while every section meets the user as the handler saw him, the handlers do
what they do one after the other. A `LOGIN` whose user has been logged in since its look
takes the user over : both clients have their `ACK`, and the first is bound to nobody. So the
acknowledged clients are bound at the end exactly if no section met that
(`loginUser_exclusive_iff`).
-/

namespace ClassProjects

namespace Ims

open TwoPhase (Look Conf Repeats acts_of_step)

/-- A message of a client that binds his connection, or unbinds it. -/
inductive SessionOp
  | login (userName : CStr) (connfd : ℕ)
  | logout (connfd : ℕ)
deriving DecidableEq

namespace SessionOp

def connfd : SessionOp → ℕ
  | .login _ connfd => connfd
  | .logout connfd => connfd

def isLogin : SessionOp → Bool
  | .login _ _ => true
  | .logout _ => false

/-- The message. -/
def event : SessionOp → Event
  | .login userName connfd => .msg connfd (some (.op (.login userName)))
  | .logout connfd => .msg connfd (some (.op .logout))

/-- `loginUser` and `logoutUser` up to `sem_wait` : the answer, or `ucur`. -/
def look (op : SessionOp) (db : Db) : Look Sent CStr :=
  match op with
  | .login userName connfd =>
    match db.findUser userName with
    | none => .answer [⟨connfd, .error .userDoesNotExist none⟩]
    | some ucur =>
      if ucur.active = .yes ∧ ucur.connfd = connfd then
        .answer [⟨connfd, .error .clientBound (some userName)⟩]
      else if ucur.active = .yes ∧ ucur.connfd ≠ connfd then
        .answer [⟨connfd, .error .userAlreadyActive (some userName)⟩]
      else .enter ucur.name
  | .logout connfd =>
    match db.findConn connfd with
    | none => .answer [⟨connfd, .error .clientNotBound none⟩]
    | some ucur =>
      if ucur.active = .not then .answer [⟨connfd, .error .clientNotBound none⟩]
      else .enter ucur.name

/-- `loginUser` and `logoutUser` from `sem_wait` on. -/
def enter (op : SessionOp) (name : CStr) (db : Db) : Option (Db × List Sent) := do
  let ucur ← db.findUser name
  match op with
  | .login userName connfd =>
    let db := db.updateUser (fun u => u.name = name) fun u =>
      { u with active := .yes, connfd := connfd }
    let own ← ucur.flist.mapM (friendStatus db connfd)
    let friends ← notifyFriends db (.status userName .yes .yes) ucur.flist
    some (db, ⟨connfd, .ack .login (some userName)⟩ :: own ++ friends)
  | .logout connfd =>
    let db := db.updateUser (fun u => u.name = name) fun u =>
      { u with active := .not, connfd := -1 }
    let friends ← notifyFriends db (.status name .yes .not) ucur.flist
    some (db, ⟨connfd, .ack .logout none⟩ :: friends)

/-- What is remembered would be found again. -/
def finds (op : SessionOp) (name : CStr) (db : Db) : Bool :=
  match op with
  | .login _ _ => (db.findUser name).any fun ucur => ucur.active = .not
  | .logout connfd => (db.findConn connfd).map DbUser.name = some name

end SessionOp

/-- The clients whose `LOGIN` was acknowledged, each with the name. -/
def loggedIn (out : List Sent) : List (ℤ × CStr) :=
  out.filterMap fun s =>
    match s.msg with
    | .ack .login (some n) => some (s.connfd, n)
    | _ => none

section Race

variable {ι : Type*} [DecidableEq ι]

/-- A configuration of concurrent logins and logouts. -/
abbrev SessionConf (ι : Type*) :=
  Conf ι Db CStr

/-- The next step of one of the handlers. -/
def sessionStep (ops : ι → SessionOp) : SessionConf ι → ι → Option (SessionConf ι × List Sent) :=
  TwoPhase.step (fun i db => some ((ops i).look db)) fun i name db => (ops i).enter name db

/-- If the step is a section, it meets the user as the handler saw him. -/
def Undisturbed (ops : ι → SessionOp) (c : SessionConf ι) (i : ι) : Prop :=
  i ∉ c.finished → ∀ name ∈ c.plans i, (ops i).finds name c.shared = true

instance (ops : ι → SessionOp) (c : SessionConf ι) (i : ι) : Decidable (Undisturbed ops c i) :=
  inferInstanceAs
    (Decidable (i ∉ c.finished → ∀ name ∈ c.plans i, (ops i).finds name c.shared = true))

end Race

variable {lim : ImpLimits} {db db' : Db} {op : SessionOp} {u : DbUser} {n m : CStr} {fd : ℕ}
  {out o o' : List Sent}

@[simp] theorem loggedIn_append : loggedIn (o ++ o') = loggedIn o ++ loggedIn o' :=
  List.filterMap_append

@[simp] theorem loggedIn_nil : loggedIn [] = [] :=
  rfl

theorem loggedIn_eq_nil (h : ∀ s ∈ out, ∀ n, s.msg ≠ .ack .login (some n)) :
    loggedIn out = [] := by
  rw [loggedIn, List.filterMap_eq_nil_iff]
  intro s hs
  split
  · rename_i n hn
    exact absurd hn (h s hs n)
  · rfl

/-! ## One handler -/

/-- The answer to a message that is carried out. -/
def SessionOp.ack : SessionOp → ImpMsg
  | .login userName _ => .ack .login (some userName)
  | .logout _ => .ack .logout none

/-- The user after the assignments of the section. -/
def SessionOp.bind (op : SessionOp) (db : Db) (name : CStr) : Db :=
  match op with
  | .login _ connfd => db.rebind name .yes connfd
  | .logout _ => db.rebind name .not (-1)

theorem SessionOp.rep_bind (op : SessionOp) (h : db.Rep) (name : CStr) : (op.bind db name).Rep := by
  cases op with
  | login m fd => exact h.rebind (by simp)
  | logout fd => exact h.rebind (by simp)

theorem SessionOp.names_bind (op : SessionOp) (db : Db) (name : CStr) :
    (op.bind db name).names = db.names := by
  cases op <;> exact Db.names_rebind

/-- A handler that goes on to the section remembers a user that it would find again. -/
theorem SessionOp.finds_of_look (h : op.look db = .enter n) :
    op.finds n db = true ∧ n ∈ db.names ∧ ∀ m fd, op = .login m fd → n = m := by
  cases op with
  | login m fd =>
    rw [SessionOp.look] at h
    cases hu : db.findUser m with
    | none => simp [hu] at h
    | some ucur =>
      obtain rfl := Db.name_of_findUser hu
      cases ha : ucur.active with
      | yes => by_cases hc : ucur.connfd = fd <;> simp [hu, ha, hc] at h
      | not =>
        obtain rfl : ucur.name = n := by simpa [hu, ha] using h
        refine ⟨by simp [SessionOp.finds, hu, ha], Db.mem_names.2 ⟨ucur, hu⟩, ?_⟩
        rintro m fd ⟨⟩
        rfl
  | logout fd =>
    rw [SessionOp.look] at h
    cases hu : db.findConn fd with
    | none => simp [hu] at h
    | some ucur =>
      cases ha : ucur.active with
      | not => simp [hu, ha] at h
      | yes =>
        obtain rfl : ucur.name = n := by simpa [hu, ha] using h
        exact ⟨by simp [SessionOp.finds, hu], List.mem_map_of_mem (Db.mem_of_findConn hu), by simp⟩

/-- And so it does find him again. -/
theorem SessionOp.look_of_finds (h : db.Rep) (hf : op.finds n db = true)
    (hn : ∀ m fd, op = .login m fd → n = m) : op.look db = .enter n := by
  cases op with
  | login m fd =>
    obtain rfl := hn m fd rfl
    obtain ⟨ucur, hu, ha⟩ : ∃ ucur, db.findUser n = some ucur ∧ ucur.active = .not := by
      simpa [SessionOp.finds, Option.any_eq_true] using hf
    simp [SessionOp.look, hu, ha, Db.name_of_findUser hu]
  | logout fd =>
    obtain ⟨ucur, hu, rfl⟩ : ∃ ucur, db.findConn fd = some ucur ∧ ucur.name = n := by
      simpa [SessionOp.finds] using hf
    have ha := h.active_of_connfd (Db.mem_of_findConn hu) (Db.connfd_of_findConn hu)
    simp [SessionOp.look, hu, ha]

/-- The section binds or unbinds the user, and acknowledges the message first. -/
theorem SessionOp.enter_eq (op : SessionOp) (h : db.Rep) (hu : db.findUser n = some u) :
    ∃ status : List Sent, (∀ s ∈ status, ∀ m, s.msg ≠ .ack .login (some m)) ∧
      op.enter n db = some (op.bind db n,
        ⟨op.connfd, op.ack⟩ :: status) := by
  have hmem := Db.mem_of_findUser hu
  cases op with
  | login m fd =>
    have h' : (db.rebind n .yes fd).Rep := h.rebind (by simp)
    have hu' : u.rebind .yes fd ∈ (db.rebind n .yes fd).users :=
      Db.mem_rebind.2 ⟨u, hmem, by simp [Db.name_of_findUser hu]⟩
    have hdb : (db.updateUser (fun u => u.name = n) fun u => u.rebind .yes fd) =
        db.rebind n .yes fd := updateUser_name h hu _
    have hown := mapM_friendStatus (c := fd) h' hu'
    have hnotify := notifyFriends_eq (.status m .yes .yes) fun e he =>
      (h'.deref_of_mem hu' he).imp fun _ hf => hf.2.2
    simp only [DbUser.rebind] at hdb hown hnotify
    refine ⟨ownStatus (db.rebind n .yes fd) fd (u.rebind .yes fd) ++
      (activeFriends (db.rebind n .yes fd) u.flist).map fun f => ⟨f.connfd, .status m .yes .yes⟩,
      ?_, ?_⟩
    · simp [ownStatus, Db.viewMsg, or_imp, forall_and]
    · simp only [SessionOp.enter, hu, hdb, hown, hnotify, Option.bind_eq_bind, Option.bind_some]
      rfl
  | logout fd =>
    have h' : (db.rebind n .not (-1)).Rep := h.rebind (by simp)
    have hu' : u.rebind .not (-1) ∈ (db.rebind n .not (-1)).users :=
      Db.mem_rebind.2 ⟨u, hmem, by simp [Db.name_of_findUser hu]⟩
    have hdb : (db.updateUser (fun u => u.name = n) fun u => u.rebind .not (-1)) =
        db.rebind n .not (-1) := updateUser_name h hu _
    have hnotify := notifyFriends_eq (.status n .yes .not) fun e he =>
      (h'.deref_of_mem hu' he).imp fun _ hf => hf.2.2
    simp only [DbUser.rebind] at hdb hnotify
    refine ⟨(activeFriends (db.rebind n .not (-1)) u.flist).map
      fun f => ⟨f.connfd, .status n .yes .not⟩, ?_, ?_⟩
    · simp
    · simp only [SessionOp.enter, hu, hdb, hnotify, Option.bind_eq_bind, Option.bind_some]
      rfl

section Run

variable {ι : Type*} {ops : ι → SessionOp} {c c' : SessionConf ι} {i : ι} {sched : List ι}

/-- What is true of a remembered name until the section. -/
structure SessionOp.Knows (op : SessionOp) (name : CStr) (db : Db) : Prop where
  mem : name ∈ db.names
  login : ∀ m fd, op = .login m fd → name = m

/-- The invariant of every run. -/
structure SessionInv (ops : ι → SessionOp) (c : SessionConf ι) : Prop where
  rep : c.shared.Rep
  plans : ∀ i name, i ∉ c.finished → c.plans i = some name → (ops i).Knows name c.shared

/-- A section finds its user. -/
theorem SessionOp.Knows.enter {op : SessionOp} (hk : op.Knows n db) (h : db.Rep) :
    ∃ status : List Sent, (∀ s ∈ status, ∀ m, s.msg ≠ .ack .login (some m)) ∧
      op.enter n db = some (op.bind db n,
        ⟨op.connfd, op.ack⟩ :: status) := by
  obtain ⟨u, hu⟩ := Db.mem_names.1 hk.mem
  exact op.enter_eq h hu

variable [DecidableEq ι]

theorem SessionInv.step (hI : SessionInv ops c) (hs : sessionStep ops c i = some (c', o)) :
    SessionInv ops c' := by
  have hlook : ∀ name, some ((ops i).look c.shared) = some (.enter name) →
      (ops i).Knows name c.shared := by
    intro name hl
    obtain ⟨-, hmem, hn⟩ := SessionOp.finds_of_look (Option.some.inj hl)
    exact ⟨hmem, hn⟩
  have henter : ∀ name db' out, i ∉ c.finished → c.plans i = some name →
      (ops i).enter name c.shared = some (db', out) → db'.Rep ∧
        ∀ j name', j ≠ i → (ops j).Knows name' c.shared → (ops j).Knows name' db' := by
    intro name db' out hf hp he
    obtain ⟨status, -, he'⟩ := (hI.plans i name hf hp).enter hI.rep
    obtain ⟨rfl, -⟩ := Prod.mk.inj (Option.some.inj (he'.symm.trans he))
    exact ⟨(ops i).rep_bind hI.rep name, fun j name' _ hk =>
      ⟨by rw [SessionOp.names_bind]; exact hk.mem, hk.login⟩⟩
  obtain ⟨rep, plans⟩ := TwoPhase.invariant_step (V := Db.Rep)
    (P := fun i name db => (ops i).Knows name db) hI.rep hI.plans hlook henter hs
  exact ⟨rep, plans⟩

omit [DecidableEq ι] in
/-- A section that meets its user as the handler saw him is one that would be entered now. -/
theorem SessionInv.repeats (hI : SessionInv ops c) (hu : Undisturbed ops c i) :
    Repeats (fun i db => some ((ops i).look db)) c i := by
  intro hf name hp
  have hk := hI.plans i name hf hp
  exact congrArg some (SessionOp.look_of_finds hI.rep (hu hf name hp) hk.login)

omit [DecidableEq ι] in
/-- The section of a `LOGIN`. -/
theorem SessionInv.enter_login (hI : SessionInv ops c) (hf : i ∉ c.finished)
    (hp : c.plans i = some n) (hop : ops i = .login m fd)
    (he : (ops i).enter n c.shared = some (db', out)) :
    n = m ∧ m ∈ c.shared.names ∧ db' = c.shared.rebind m .yes fd ∧
      loggedIn out = [((fd : ℤ), m)] := by
  have hk := hI.plans i n hf hp
  obtain rfl := hk.login m fd hop
  obtain ⟨status, hstatus, he'⟩ := hk.enter hI.rep
  obtain ⟨rfl, rfl⟩ := Prod.mk.inj (Option.some.inj (he'.symm.trans he))
  refine ⟨rfl, hk.mem, by rw [hop]; rfl, ?_⟩
  have hcons : loggedIn (⟨(ops i).connfd, (ops i).ack⟩ :: status) =
      loggedIn [⟨(ops i).connfd, (ops i).ack⟩] ++ loggedIn status :=
    loggedIn_append (o := [_])
  rw [hcons, loggedIn_eq_nil hstatus, hop]
  rfl

/-- The connection a user is bound to after a `LOGIN`. -/
theorem connfd_rebind (hm : m ∈ db.names) (n : CStr) :
    ((db.rebind m .yes fd).findUser n).map DbUser.connfd =
      if n = m then some (fd : ℤ) else (db.findUser n).map DbUser.connfd := by
  rw [Db.findUser_rebind]
  split_ifs with hn
  · obtain ⟨u, hu⟩ := Db.mem_names.1 hm
    rw [hn, hu]
    rfl
  · simp

theorem loggedIn_of_answer (h : op.look db = .answer out) : loggedIn out = [] := by
  obtain ⟨et, m, rfl⟩ : ∃ et m, out = [⟨op.connfd, .error et m⟩] := by
    cases op with
    | login m fd =>
      rw [SessionOp.look] at h
      split at h
      · cases h
        exact ⟨_, _, rfl⟩
      · split_ifs at h <;> cases h <;> exact ⟨_, _, rfl⟩
    | logout fd =>
      rw [SessionOp.look] at h
      split at h
      · cases h
        exact ⟨_, _, rfl⟩
      · split_ifs at h
        cases h
        exact ⟨_, _, rfl⟩
  rfl

/-- What a step of `LOGIN`s does : it changes neither the database nor who is logged in, and a
name it remembers is one it finds ; or it is the section of the handler. -/
theorem SessionInv.login_cases (hI : SessionInv ops c) (hall : ∀ i, (ops i).isLogin = true)
    (hs : sessionStep ops c i = some (c', o)) :
    (c'.shared = c.shared ∧ loggedIn o = [] ∧ (∀ j ∈ c.finished, j ∈ c'.finished) ∧
      (i ∈ c.finished ∨ c.plans i = none) ∧ ∀ j name, j ∉ c'.finished → c'.plans j = some name →
        c.plans j = some name ∨ (ops j).finds name c.shared = true) ∨
    ∃ m fd, ops i = .login m fd ∧ i ∉ c.finished ∧ c.plans i = some m ∧
      m ∈ c.shared.names ∧ loggedIn o = [((fd : ℤ), m)] ∧
      c' = ⟨c.shared.rebind m .yes fd, c.plans, c.finished ++ [i]⟩ := by
  cases acts_of_step hs with
  | rests hf => exact Or.inl ⟨rfl, rfl, fun j hj => hj, Or.inl hf, fun j name _ hp => Or.inl hp⟩
  | answers hf hp hl =>
    exact Or.inl ⟨rfl, loggedIn_of_answer (Option.some.inj hl),
      fun j hj => List.mem_append_left _ hj, Or.inr hp, fun j name _ hp => Or.inl hp⟩
  | @looks q hf hp hl =>
    refine Or.inl ⟨rfl, rfl, fun j hj => hj, Or.inr hp, fun j name _ hp' => ?_⟩
    have hupd : Function.update c.plans i (some q) j = some name := hp'
    by_cases hji : j = i
    · subst hji
      rw [Function.update_self] at hupd
      obtain rfl := Option.some.inj hupd
      exact Or.inr (SessionOp.finds_of_look (Option.some.inj hl)).1
    · rw [Function.update_of_ne hji] at hupd
      exact Or.inl hupd
  | @enters name db' out hf hp he =>
    cases hop : ops i with
    | logout fd =>
      have hlogin := hall i
      rw [hop] at hlogin
      cases hlogin
    | login m fd =>
      obtain ⟨rfl, hmem, rfl, hlog⟩ := hI.enter_login hf hp hop he
      exact Or.inr ⟨_, fd, rfl, hf, hp, hmem, hlog, rfl⟩

/-- Of `LOGIN`s alone : those acknowledged have finished, and if a handler would not find its
user again, one of them has logged him in. -/
structure LoginInv (ops : ι → SessionOp) (c : SessionConf ι) (o : List Sent) : Prop where
  inv : SessionInv ops c
  acked : ∀ p ∈ loggedIn o, ∃ j ∈ c.finished, ((ops j).connfd : ℤ) = p.1
  seen : ∀ i name, i ∉ c.finished → c.plans i = some name →
    (ops i).finds name c.shared = true ∨ ∃ fd, (fd, name) ∈ loggedIn o

/-- Another user's login does not hide the user. -/
theorem finds_rebind {fd' : ℕ} {m' : CStr} (hne : n ≠ m') :
    (SessionOp.login m fd).finds n (db.rebind m' .yes fd') =
      (SessionOp.login m fd).finds n db := by
  rw [SessionOp.finds, SessionOp.finds, Db.findUser_rebind]
  simp [hne]

theorem LoginInv.step (hall : ∀ i, (ops i).isLogin = true) (hL : LoginInv ops c o)
    (hs : sessionStep ops c i = some (c', o')) : LoginInv ops c' (o ++ o') := by
  have hI' := hL.inv.step hs
  rcases hL.inv.login_cases hall hs with ⟨hdb, hlog, hfin, -, hplans⟩ |
    ⟨m, fd, hop, hf, hp, hmem, hlog, rfl⟩
  · refine ⟨hI', fun p hpo => ?_, fun j name hj hpj => ?_⟩
    · rw [loggedIn_append, hlog, List.append_nil] at hpo
      obtain ⟨j, hj, hjp⟩ := hL.acked p hpo
      exact ⟨j, hfin j hj, hjp⟩
    · rw [hdb, loggedIn_append, hlog, List.append_nil]
      rcases hplans j name hj hpj with hpj | hfinds
      · exact hL.seen j name (fun hjf => hj (hfin j hjf)) hpj
      · exact Or.inl hfinds
  · refine ⟨hI', fun p hpo => ?_, fun j name hj hpj => ?_⟩
    · rw [loggedIn_append, hlog, List.mem_append, List.mem_singleton] at hpo
      rcases hpo with hpo | rfl
      · obtain ⟨j, hj, hjp⟩ := hL.acked p hpo
        exact ⟨j, List.mem_append_left _ hj, hjp⟩
      · exact ⟨i, by simp, by rw [hop]; rfl⟩
    · have hjf : j ∉ c.finished := fun hjf => hj (List.mem_append_left _ hjf)
      rw [loggedIn_append, hlog]
      by_cases hne : name = m
      · exact Or.inr ⟨fd, by simp [hne]⟩
      · rcases hL.seen j name hjf hpj with hfinds | ⟨fd', hfd'⟩
        · cases hopj : ops j with
          | logout fd' =>
            have hlogin := hall j
            rw [hopj] at hlogin
            cases hlogin
          | login m' fd' =>
            left
            rw [← hfinds, hopj]
            exact finds_rebind hne
        · exact Or.inr ⟨fd', List.mem_append_left _ hfd'⟩

/-- A client with an acknowledged `LOGIN` is not bound to the user. -/
structure Ousted (ops : ι → SessionOp) (c : SessionConf ι) (o : List Sent) : Prop where
  inv : LoginInv ops c o
  ousted : ∃ j ∈ c.finished, ∃ n, (((ops j).connfd : ℤ), n) ∈ loggedIn o ∧
    (c.shared.findUser n).map DbUser.connfd ≠ some ((ops j).connfd : ℤ)

/-- And he stays ousted. -/
theorem Ousted.step (hall : ∀ i, (ops i).isLogin = true)
    (hinj : Function.Injective fun i => (ops i).connfd) (h : Ousted ops c o)
    (hs : sessionStep ops c i = some (c', o')) : Ousted ops c' (o ++ o') := by
  refine ⟨h.inv.step hall hs, ?_⟩
  obtain ⟨j, hj, n, hlog, hne⟩ := h.ousted
  rcases h.inv.inv.login_cases hall hs with ⟨hdb, -, hfin, -⟩ | ⟨m, fd, hop, hf, -, hmem, -, rfl⟩
  · exact ⟨j, hfin j hj, n, by simp [hlog], by rwa [hdb]⟩
  · refine ⟨j, List.mem_append_left _ hj, n, by simp [hlog], ?_⟩
    rw [connfd_rebind hmem]
    split_ifs
    · intro heq
      have hfd : (ops i).connfd = (ops j).connfd := by
        rw [hop]
        exact_mod_cast Option.some.inj heq
      exact hf (hinj hfd ▸ hj)
    · exact hne

end Run

end Ims

end ClassProjects
