import ClassProjects.Ims.Sessions

/-!
# One user for a connection

Whether a connection that a user is active on can register or log in again. The handlers
search the user list by name, so they notice the connection only if the user they find is
the one bound to it. A name that the operation can be carried out for, a new one for
`REGISTER` and that of an inactive user for `LOGIN`, is accepted on any connection
(`exists_ack`), and every other name is refused (`step_refused`).

So the bindings are unique in the runs whose bound connections send no such name, and in no
others (`bindsOnce_iff`).
-/

namespace ClassProjects

namespace Ims

open KeyedList

variable {lim : ImpLimits} {db db' : Db} {u : DbUser} {n : CStr} {c : ℕ} {o : Outcome}
  {mop : ImpMsgOp} {ev : Event} {out : List Sent} {evs : List Event}

/-- The operations that bind a name. -/
def ImpMsgOp.binds : ImpMsgOp → Bool
  | .register _ | .login _ => true
  | _ => false

/-- The name is acceptable for the operation : a valid one that no user has for `REGISTER`,
that of a user who is not active for `LOGIN`. -/
def acceptable (lim : ImpLimits) (db : Db) : ImpMsgOp → Bool
  | .register userName => validUserName lim userName && (db.findUser userName).isNone
  | .login userName => (db.findUser userName).any fun ucur => ucur.active = .not
  | _ => false

/-- Some user is active on the connection. -/
def Db.occupied (db : Db) (connfd : ℕ) : Bool :=
  db.users.any fun u => u.active = .yes ∧ u.connfd = connfd

/-- An event leaves the bindings unique : on a bound connection `REGISTER` and `LOGIN` change
nothing and are answered with one error, `CLIENT_BOUND` if the name is acceptable. -/
def BindsOnce (lim : ImpLimits) (db : Db) (ev : Event) : Prop :=
  (∀ connfd mop, ev = .msg connfd (some (.op mop)) → mop.binds = true →
    db.occupied connfd = true → ∃ et userName,
      step lim db ev = some (db, [⟨connfd, .error et userName⟩]) ∧
        (acceptable lim db mop = true → et = .clientBound)) ∧
  ∀ db' out, step lim db ev = some (db', out) → ∀ connfd, db'.boundCount connfd ≤ 1

/-- No acceptable name comes from a bound connection. -/
def NoSecond (lim : ImpLimits) (db : Db) : Event → Prop
  | .msg connfd (some (.op mop)) => (db.occupied connfd && acceptable lim db mop) = false
  | _ => True

instance (db : Db) (ev : Event) : Decidable (NoSecond lim db ev) :=
  match ev with
  | .msg connfd (some (.op mop)) =>
    inferInstanceAs (Decidable ((db.occupied connfd && acceptable lim db mop) = false))
  | .msg _ none | .msg _ (some (.ack _ _)) | .msg _ (some (.error _ _)) => isTrue trivial
  | .msg _ (some (.status _ _ _)) | .disconnect _ => isTrue trivial

/-! ## What is accepted and what is refused -/

/-- An acceptable name is acknowledged, whoever is bound to the connection. -/
theorem exists_ack (h : acceptable lim db mop = true)
    (hs : step lim db (.msg c (some (.op mop))) = some (db', out)) :
    ∃ op userName, ⟨c, .ack op userName⟩ ∈ out := by
  obtain ⟨o, ho, hr⟩ := Option.map_eq_some_iff.1 hs
  obtain ⟨rfl, rfl⟩ := Prod.mk.inj hr
  cases mop with
  | register n =>
    obtain ⟨hv, hn⟩ : validUserName lim n = true ∧ db.findUser n = none := by
      simpa [acceptable] using h
    obtain rfl := Option.some.inj ho
    rw [registerUser_new hv hn]
    exact ⟨_, _, List.mem_singleton_self _⟩
  | login n =>
    obtain ⟨u, hu, ha⟩ : ∃ u, db.findUser n = some u ∧ u.active = .not := by
      simpa [acceptable, Option.any_eq_true] using h
    replace ho : loginUser db n c = some o := ho
    simp only [loginUser, hu, ha, reduceCtorEq, false_and, if_false] at ho
    obtain ⟨own, -, ho⟩ := Option.bind_eq_some_iff.1 ho
    obtain ⟨friends, -, ho⟩ := Option.bind_eq_some_iff.1 ho
    obtain rfl := Option.some.inj ho
    exact ⟨_, _, List.mem_cons_self⟩
  | _ => cases h

theorem registerUser_refused (h : acceptable lim db (.register n) = false) :
    ∃ et userName, registerUser lim db n c = answerError 1 db c et userName := by
  cases hv : validUserName lim n with
  | false => exact ⟨_, _, by rw [registerUser, if_pos hv]⟩
  | true =>
    obtain ⟨u, hu⟩ : ∃ u, db.findUser n = some u := by
      simpa [acceptable, hv, Option.isSome_iff_exists] using h
    by_cases hc : u.connfd = c
    · exact ⟨.clientBound, some n, by simp [registerUser, hv, hu, hc]⟩
    · exact ⟨.userExists, some n, by simp [registerUser, hv, hu, hc]⟩

theorem loginUser_refused (h : acceptable lim db (.login n) = false) :
    ∃ et userName, loginUser db n c = some (answerError 1 db c et userName) := by
  cases hu : db.findUser n with
  | none => exact ⟨.userDoesNotExist, none, by simp [loginUser, hu]⟩
  | some u =>
    have ha : u.active = .yes := by
      cases ha : u.active with
      | yes => rfl
      | not => simp [acceptable, hu, ha] at h
    by_cases hc : u.connfd = c
    · exact ⟨.clientBound, some n, by simp [loginUser, hu, ha, hc]⟩
    · exact ⟨.userAlreadyActive, some n, by simp [loginUser, hu, ha, hc]⟩

/-- Every other name is refused on every connection, and nothing changes. -/
theorem step_refused (hop : mop.binds = true) (h : acceptable lim db mop = false) :
    ∃ et userName,
      step lim db (.msg c (some (.op mop))) = some (db, [⟨c, .error et userName⟩]) := by
  cases mop with
  | register n =>
    obtain ⟨et, m, hreg⟩ := registerUser_refused (c := c) h
    exact ⟨et, m, by rw [step, handleMsg, handleOp, hreg]; rfl⟩
  | login n =>
    obtain ⟨et, m, hlog⟩ := loginUser_refused (c := c) h
    exact ⟨et, m, by rw [step, handleMsg, handleOp, hlog]; rfl⟩
  | _ => cases hop

/-- A login or a registration that is acknowledged had an acceptable name. -/
theorem acceptable_of_ack {op : ImpOp} {m : Option CStr} (hop : mop.binds = true)
    (hs : step lim db (.msg c (some (.op mop))) = some (db', out)) (hack : ⟨c, .ack op m⟩ ∈ out) :
    acceptable lim db mop = true := by
  by_contra h
  obtain ⟨et, m', hstep⟩ := step_refused (c := c) hop (eq_false_of_ne_true h)
  obtain ⟨-, rfl⟩ := Prod.mk.inj (Option.some.inj (hstep.symm.trans hs))
  simp at hack

/-! ## How many users are bound -/

theorem occupied_iff (hact : ∀ u ∈ db.users, u.active = .yes ↔ u.connfd ≠ -1) :
    db.occupied c = false ↔ db.boundCount c = 0 := by
  simp only [Db.occupied, Db.boundCount, List.any_eq_false, List.countP_eq_zero,
    decide_eq_true_eq]
  refine forall₂_congr fun u hu => not_congr ⟨fun h => h.2, fun h => ⟨?_, h⟩⟩
  exact (hact u hu).2 (by omega)

/-- An assignment that binds nobody to the connection. -/
theorem boundCount_updateUser {p : DbUser → Bool} {f : DbUser → DbUser}
    (hf : ∀ u, (f u).connfd = c → u.connfd = c) :
    (db.updateUser p f).boundCount c ≤ db.boundCount c :=
  countP_updateFirst_le fun u hu => by simpa using hf u (by simpa using hu)

theorem boundCount_of_edit (h : Edit db db') (c : ℕ) : db'.boundCount c ≤ db.boundCount c := by
  induction h with
  | refl => rfl
  | setFlist p l _ _ ih =>
    exact (boundCount_updateUser (f := fun u => { u with flist := l }) fun _ hu => hu).trans ih

/-- The bindings of a database are unique. -/
structure Db.Unique (db : Db) : Prop where
  active_iff : ∀ u ∈ db.users, u.active = .yes ↔ u.connfd ≠ -1
  bound : ∀ c, db.boundCount c ≤ 1

theorem unique_step (h : db.Unique) (hno : NoSecond lim db ev)
    (hs : step lim db ev = some (db', out)) : db'.Unique := by
  refine ⟨active_iff_of_step h.active_iff hs, fun c => ?_⟩
  have hc := h.bound c
  cases change_of_step hs with
  | edited hedit => exact (boundCount_of_edit hedit c).trans hc
  | registered _ _ =>
    have hnew : (-1 : ℤ) ≠ c := by omega
    simpa [Db.boundCount, Db.append, dbUserInit, hnew] using hc
  | @loggedIn c' n _ hack =>
    by_cases hcc : c' = c
    · -- the connection of an acknowledged login was free
      have hacc := acceptable_of_ack rfl hs hack
      have hfree : db.boundCount c = 0 := by
        rw [← occupied_iff h.active_iff, ← hcc]
        simpa [NoSecond, hacc] using hno
      refine countP_updateFirst_le_succ.trans ?_
      exact Nat.succ_le_succ (Nat.le_of_eq hfree)
    · refine (boundCount_updateUser fun u hu => ?_).trans hc
      simp only [DbUser.rebind] at hu
      omega
  | loggedOut _ =>
    refine (boundCount_updateUser fun u hu => ?_).trans hc
    simp only [DbUser.rebind] at hu
    omega

/-! ## Every run -/

/-- Where the bindings are unique, an event leaves them so exactly when it is no acceptable
name from a bound connection. -/
theorem bindsOnce_step (h : db.Unique) : BindsOnce lim db ev ↔ NoSecond lim db ev := by
  constructor
  · rintro ⟨hrefuse, -⟩
    match ev with
    | .msg c (some (.op mop)) =>
      by_contra hno
      obtain ⟨hocc, hacc⟩ : db.occupied c = true ∧ acceptable lim db mop = true := by
        simpa [NoSecond] using hno
      have hop : mop.binds = true := by
        cases mop <;> first | rfl | cases hacc
      obtain ⟨et, m, hs, -⟩ := hrefuse c mop rfl hop hocc
      obtain ⟨op, m', hack⟩ := exists_ack hacc hs
      simp at hack
    | .msg _ none | .msg _ (some (.ack _ _)) | .msg _ (some (.error _ _)) => trivial
    | .msg _ (some (.status _ _ _)) | .disconnect _ => trivial
  · refine fun hno => ⟨?_, fun db' out hs => (unique_step h hno hs).bound⟩
    rintro c mop rfl hop hocc
    have hacc : acceptable lim db mop = false := by simpa [NoSecond, hocc] using hno
    obtain ⟨et, m, hs⟩ := step_refused (c := c) hop hacc
    exact ⟨et, m, hs, by simp [hacc]⟩

theorem Db.Offline.unique (h : db.Offline) : db.Unique where
  active_iff u hu := by simp [h u hu]
  bound c := by
    have hzero : db.boundCount c = 0 := by
      refine List.countP_eq_zero.2 fun u hu => ?_
      simp [h u hu]
    omega

/-- From the start of the server on, every event of a run leaves the bindings unique exactly
when no acceptable name comes from a bound connection. -/
theorem bindsOnce_iff (h : db.Offline) : Machine.AllSteps (step lim) (BindsOnce lim) db evs ↔
    Machine.AllSteps (step lim) (NoSecond lim) db evs := by
  constructor
  · exact Machine.AllSteps.imp (fun _ _ hinv => (bindsOnce_step hinv).1)
      (fun _ _ _ _ hinv hC => unique_step hinv ((bindsOnce_step hinv).1 hC)) h.unique
  · exact Machine.AllSteps.imp (fun _ _ hinv => (bindsOnce_step hinv).2)
      (fun _ _ _ _ hinv hC => unique_step hinv hC) h.unique

/-- Second attempts with names that are taken. -/
theorem bindsOnce_taken : Machine.AllSteps (step impLimits) (BindsOnce impLimits) Db.offlineDuo
    [.msg 4 (some (.op (.login "alice".toList))), .msg 4 (some (.op (.login "alice".toList))),
      .msg 4 (some (.op (.register "bob".toList))), .msg 5 (some (.op (.login "bob".toList))),
      .msg 4 (some (.op (.login "bob".toList)))] :=
  (bindsOnce_iff (by decide)).2 (by decide)

/-- `Db.offlineDuo` when alice has logged in. -/
def Db.aliceBound : Db :=
  ⟨[⟨"alice".toList, .yes, 4, []⟩, dbUserInit "bob".toList], 2⟩

/-- A client that is logged in registers a new name, or logs in as a second user. -/
theorem not_bindsOnce : Db.offlineDuo.Offline ∧
    ∀ mop ∈ [ImpMsgOp.register "carol".toList, .login "bob".toList],
      ¬Machine.AllSteps (step impLimits) (BindsOnce impLimits) Db.offlineDuo
        [.msg 4 (some (.op (.login "alice".toList))), .msg 4 (some (.op mop))] := by
  have hlogin : step impLimits Db.offlineDuo (.msg 4 (some (.op (.login "alice".toList)))) =
      some (Db.aliceBound, [⟨4, .ack .login (some "alice".toList)⟩]) := by decide
  have hbinds : ∀ mop ∈ [ImpMsgOp.register "carol".toList, .login "bob".toList],
      mop.binds = true := by decide
  have hchanges : ∀ mop ∈ [ImpMsgOp.register "carol".toList, .login "bob".toList],
      (step impLimits Db.aliceBound (.msg 4 (some (.op mop)))).map Prod.fst ≠
        some Db.aliceBound := by decide
  refine ⟨by decide, fun mop hmop h => ?_⟩
  obtain ⟨⟨hrefuse, -⟩, -⟩ := h.2 _ _ hlogin
  obtain ⟨et, m, hs, -⟩ := hrefuse 4 mop rfl (hbinds mop hmop) (by decide)
  exact hchanges mop hmop (by rw [hs]; rfl)

end Ims

end ClassProjects
