import ClassProjects.Ims.HandlerSpec
import ClassProjects.Lib.NodeList
import ClassProjects.Lib.TwoPhase
import Mathlib.Data.List.Perm.Subperm

/-!
# Concurrent registrations

`registerUser` walks the user list before `sem_wait` and remembers in `uprev` the last
node it passed ; the section that the semaphore guards links the new node behind that one.
Here the user nodes have addresses, a handler is the two steps of `Lib/TwoPhase`, and any
number of handlers interleave.

`registerUser_serial` : while every section finds its `uprev` still the last node, the
handlers do what `registerUser` does one after the other. A section behind an earlier
node drops the nodes behind it, and one behind a dropped node links the new user where no
search finds him, so an acknowledged user is missing. `registerUser_keeps_iff` puts both
together : with different names the acknowledged users are all there exactly if each
section met that condition.
-/

namespace ClassProjects

namespace Ims

open TwoPhase (Look Conf Repeats acts_of_step)

/-! ## The user list in memory -/

/-- `db`, with an address for each user node. -/
structure UserHeap where
  users : List (DbUser × ℕ)
  unum : ℕ
  /-- The next address `malloc` returns. -/
  next : ℕ

/-- The database without the addresses. -/
def UserHeap.erase (h : UserHeap) : Db :=
  ⟨h.users.map Prod.fst, h.unum⟩

/-- The nodes of a database, at the first addresses. -/
def UserHeap.start (db : Db) : UserHeap :=
  ⟨db.users.zipIdx, db.unum, db.users.length⟩

/-- A `REGISTER` message and the connection it came from. -/
structure Client where
  userName : CStr
  connfd : ℕ

/-- `registerUser` up to `sem_wait` : the answer, or `uprev`. -/
def registerScan (lim : ImpLimits) (cl : Client) (h : UserHeap) : Look Sent (Option ℕ) :=
  if validUserName lim cl.userName = false then
    .answer [⟨cl.connfd, .error .badCommand none⟩]
  else
    match h.erase.findUser cl.userName with
    | some ucur =>
      if ucur.connfd = cl.connfd then
        .answer [⟨cl.connfd, .error .clientBound (some cl.userName)⟩]
      else .answer [⟨cl.connfd, .error .userExists (some cl.userName)⟩]
    | none => .enter (NodeList.last h.users)

/-- `registerUser` from `sem_wait` on. User nodes are never freed, so the assignment to a
node that was dropped from the list goes unseen. -/
def registerLink (cl : Client) (uprev : Option ℕ) (h : UserHeap) : UserHeap × List Sent :=
  ({ h with
      users := (NodeList.link uprev (dbUserInit cl.userName, h.next) h.users).getD h.users
      next := h.next + 1 },
    [⟨cl.connfd, .ack .register (some cl.userName)⟩])

section Race

variable {ι : Type*} [DecidableEq ι]

/-- A configuration of concurrent registrations. -/
abbrev RegisterConf (ι : Type*) :=
  Conf ι UserHeap (Option ℕ)

/-- The next step of one of the clients' handlers. -/
def registerStep (lim : ImpLimits) (clients : ι → Client) :
    RegisterConf ι → ι → Option (RegisterConf ι × List Sent) :=
  TwoPhase.step (fun i h => some (registerScan lim (clients i) h))
    fun i uprev h => some (registerLink (clients i) uprev h)

/-- If the step is a section, its `uprev` is still the last node. -/
def LinksLast (c : RegisterConf ι) (i : ι) : Prop :=
  i ∉ c.finished → ∀ uprev ∈ c.plans i, uprev = NodeList.last c.shared.users

instance (c : RegisterConf ι) (i : ι) : Decidable (LinksLast c i) :=
  inferInstanceAs
    (Decidable (i ∉ c.finished → ∀ uprev ∈ c.plans i, uprev = NodeList.last c.shared.users))

/-- The names answered with `ACK REGISTER`. -/
def acked (out : List Sent) : List CStr :=
  out.filterMap fun s =>
    match s.msg with
    | .ack .register (some n) => some n
    | _ => none

/-- Every acknowledged name is in the database once, and every user before is there. -/
structure Registered (db db' : Db) (out : List Sent) : Prop where
  once : ∀ n ∈ acked out, db'.names.count n = 1
  before : ∀ u ∈ db.users, u ∈ db'.users

instance (db db' : Db) (out : List Sent) : Decidable (Registered db db' out) :=
  decidable_of_iff
    ((∀ n ∈ acked out, db'.names.count n = 1) ∧ ∀ u ∈ db.users, u ∈ db'.users)
    ⟨fun ⟨h₁, h₂⟩ => ⟨h₁, h₂⟩, fun h => ⟨h.once, h.before⟩⟩

variable {lim : ImpLimits} {clients : ι → Client} {db db' : Db} {cl : Client} {h : UserHeap}
  {out o o' : List Sent} {uprev : Option ℕ}

@[simp] theorem acked_append : acked (o ++ o') = acked o ++ acked o' :=
  List.filterMap_append

@[simp] theorem acked_nil : acked [] = [] :=
  rfl

@[simp] theorem acked_error (fd : ℤ) (et : ImpError) (n : Option CStr) :
    acked [⟨fd, .error et n⟩] = [] :=
  rfl

@[simp] theorem acked_ack (fd : ℤ) (n : CStr) :
    acked [⟨fd, .ack .register (some n)⟩] = [n] :=
  rfl

/-! ## One handler -/

/-- A scan that goes on to the section found a valid new name, and remembers the last
node. -/
theorem registerScan_eq_enter : registerScan lim cl h = .enter uprev ↔
    validUserName lim cl.userName = true ∧ h.erase.findUser cl.userName = none ∧
      uprev = NodeList.last h.users := by
  rw [registerScan]
  cases hv : validUserName lim cl.userName with
  | false => simp
  | true =>
    cases hf : h.erase.findUser cl.userName with
    | none => simp [eq_comm]
    | some u => by_cases hc : u.connfd = cl.connfd <;> simp [hc]

/-- An answer of the scan acknowledges nothing, and is the one of `registerUser`. -/
theorem registerUser_of_answer (hs : registerScan lim cl h = .answer out) :
    acked out = [] ∧ (registerUser lim h.erase cl.userName cl.connfd).db = h.erase ∧
      (registerUser lim h.erase cl.userName cl.connfd).sent = out := by
  rw [registerScan] at hs
  rw [registerUser]
  cases hv : validUserName lim cl.userName with
  | false =>
    obtain rfl : _ = out := by simpa [hv] using hs
    simp [answerError]
  | true =>
    cases hf : h.erase.findUser cl.userName with
    | none => simp [hv, hf] at hs
    | some u =>
      by_cases hc : u.connfd = cl.connfd
      · obtain rfl : _ = out := by simpa [hv, hf, hc] using hs
        simp [hc, answerError]
      · obtain rfl : _ = out := by simpa [hv, hf, hc] using hs
        simp [hc, answerError]

/-- Behind the last node, the section is that of `registerUser`. -/
theorem registerUser_of_enter (hl : (h.users.map Prod.snd).Nodup)
    (hs : registerScan lim cl h = .enter uprev) :
    (registerUser lim h.erase cl.userName cl.connfd).db = (registerLink cl uprev h).1.erase ∧
      (registerUser lim h.erase cl.userName cl.connfd).sent = (registerLink cl uprev h).2 := by
  obtain ⟨hv, hf, rfl⟩ := registerScan_eq_enter.1 hs
  simp only [registerUser, hv, hf, registerLink, NodeList.link_last hl]
  simp [UserHeap.erase]

end Race

/-! ## What holds along every run -/

section Invariant

variable {lim : ImpLimits} {db : Db} {cl cl' : Client} {h : UserHeap} {p q : Option ℕ} {n : CStr}

theorem findUser_eq_none_iff : db.findUser n = none ↔ n ∉ db.names := by
  rw [Db.mem_names]
  cases db.findUser n <;> simp

theorem names_erase : h.erase.names = h.users.map fun x => x.1.name := by
  simp [UserHeap.erase, Db.names, Function.comp_def]

/-- The addresses are distinct, and the nodes of `db` come first. -/
structure UserHeap.Extends (h : UserHeap) (db : Db) : Prop where
  nodup : (h.users.map Prod.snd).Nodup
  lt_next : ∀ a ∈ h.users.map Prod.snd, a < h.next
  before : (UserHeap.start db).users <+: h.users

/-- What is true of a remembered node until its section. -/
structure Remembers (lim : ImpLimits) (db : Db) (cl : Client) (h : UserHeap) (uprev : Option ℕ) :
    Prop where
  valid : validUserName lim cl.userName = true
  lt_next : ∀ a, uprev = some a → a < h.next
  /-- As long as the node is the last, the name is new. -/
  new : uprev = NodeList.last h.users → cl.userName ∉ h.erase.names
  /-- The nodes of `db` are not behind the node. -/
  before : ∀ b t, NodeList.cut uprev h.users = some (b, t) → (UserHeap.start db).users <+: b
  other : cl.userName ∉ db.names

theorem UserHeap.extends_start : (UserHeap.start db).Extends db where
  nodup := by
    rw [UserHeap.start, List.zipIdx_map_snd]
    exact List.nodup_range'
  lt_next a ha := by
    rw [UserHeap.start, List.zipIdx_map_snd, List.mem_range'_1] at ha
    simpa [UserHeap.start] using ha
  before := List.prefix_refl _

theorem UserHeap.Extends.names (hh : h.Extends db) : db.names <+: h.erase.names := by
  have := (hh.before.map Prod.fst).map DbUser.name
  rwa [UserHeap.start, List.zipIdx_map_fst] at this

/-- A scan that goes on to the section remembers a node as `Remembers` says. -/
theorem UserHeap.Extends.remembers (hh : h.Extends db)
    (hs : registerScan lim cl h = .enter p) : Remembers lim db cl h p := by
  obtain ⟨hv, hnew, rfl⟩ := registerScan_eq_enter.1 hs
  have hnames := findUser_eq_none_iff.1 hnew
  refine ⟨hv, fun a ha => hh.lt_next a (NodeList.mem_of_last ha), fun _ => hnames,
    fun b t hc => ?_, fun hmem => hnames (hh.names.subset hmem)⟩
  have hcut := NodeList.cut_last (b := h.users) (t := []) (by simpa using hh.nodup)
  rw [List.append_nil, hc] at hcut
  obtain ⟨rfl, -⟩ := Prod.mk.inj (Option.some.inj hcut)
  exact hh.before

/-- What a section does to the list : nothing, or it ends behind the remembered node with
the new one. -/
theorem users_registerLink (cl : Client) (q : Option ℕ) (h : UserHeap) :
    (registerLink cl q h).1.users = h.users ∨
    ∃ b t, NodeList.cut q h.users = some (b, t) ∧ h.users = b ++ t ∧
      (registerLink cl q h).1.users = b ++ [(dbUserInit cl.userName, h.next)] := by
  cases hc : NodeList.cut q h.users with
  | none => exact Or.inl (by simp [registerLink, NodeList.link, hc])
  | some r =>
    exact Or.inr ⟨r.1, r.2, rfl, (NodeList.eq_of_cut hc).1,
      by simp [registerLink, NodeList.link, hc]⟩

theorem UserHeap.Extends.link (hh : h.Extends db) (hq : Remembers lim db cl h q) :
    (registerLink cl q h).1.Extends db := by
  rcases users_registerLink cl q h with hu | ⟨b, t, hc, hbt, hu⟩
  · exact ⟨hu ▸ hh.nodup, fun a ha => Nat.lt_succ_of_lt (hh.lt_next a (hu ▸ ha)), hu ▸ hh.before⟩
  · have hsub : b.map Prod.snd <+: h.users.map Prod.snd :=
      hbt ▸ (List.prefix_append b t).map Prod.snd
    have hlt : ∀ a ∈ b.map Prod.snd, a < h.next := fun a ha => hh.lt_next a (hsub.subset ha)
    refine ⟨?_, fun a ha => ?_, hu ▸ (hq.before b t hc).trans (List.prefix_append _ _)⟩
    · rw [hu, List.map_append, List.nodup_append]
      refine ⟨hh.nodup.sublist hsub.sublist, by simp, fun a ha a' ha' haa => ?_⟩
      obtain rfl : a' = h.next := by simpa using ha'
      exact absurd (hlt a ha) (by omega)
    · rw [hu, List.map_append, List.mem_append] at ha
      rcases ha with ha | ha
      · exact Nat.lt_succ_of_lt (hlt a ha)
      · obtain rfl : a = h.next := by simpa using ha
        exact Nat.lt_succ_self _

/-- Another handler's section does not touch what is remembered. -/
theorem Remembers.link (hp : Remembers lim db cl h p) (hq : Remembers lim db cl' h q) :
    Remembers lim db cl (registerLink cl' q h).1 p := by
  have hlt : ∀ a, p = some a → a < h.next + 1 := fun a ha => Nat.lt_succ_of_lt (hp.lt_next a ha)
  rcases users_registerLink cl' q h with hu | ⟨b, t, hc, hbt, hu⟩
  · have hnames : (registerLink cl' q h).1.erase.names = h.erase.names := by
      rw [names_erase, names_erase, hu]
    exact ⟨hp.valid, hlt, fun hl => hnames ▸ hp.new (hu ▸ hl),
      fun b t hc => hp.before b t (hu ▸ hc), hp.other⟩
  · refine ⟨hp.valid, hlt, fun hl => ?_, fun b' t' hc' => ?_, hp.other⟩
    · -- the last node is new, so nobody remembers it
      rw [hu, NodeList.last_append_singleton] at hl
      exact absurd (hp.lt_next _ hl) (lt_irrefl _)
    · rw [hu] at hc'
      rcases NodeList.cut_append_singleton hc' with ⟨t'', hcut⟩ | rfl
      · refine hp.before b' (t'' ++ t) ?_
        rw [hbt]
        exact NodeList.cut_append hcut
      · exact (hq.before b t hc).trans (List.prefix_append _ _)

variable {ι : Type*} {clients : ι → Client} {c c' : RegisterConf ι} {i : ι}
  {o o' out : List Sent} {sched : List ι}

/-- The message a client sends. -/
def Client.event (cl : Client) : Event :=
  .msg cl.connfd (some (.op (.register cl.userName)))

/-- A handler that is not interrupted is `registerUser`. -/
theorem UserHeap.Extends.atomic (hh : h.Extends db) {h' : UserHeap}
    (hs : TwoPhase.atomic (fun i h => some (registerScan lim (clients i) h))
      (fun i uprev h => some (registerLink (clients i) uprev h)) h i = some (h', out)) :
    h'.Extends db ∧ step lim h.erase (clients i).event = some (h'.erase, out) := by
  simp only [TwoPhase.atomic] at hs
  cases hscan : registerScan lim (clients i) h with
  | answer out' =>
    obtain ⟨rfl, rfl⟩ : h = h' ∧ out' = out := by simpa [hscan] using hs
    obtain ⟨-, hdb, hsent⟩ := registerUser_of_answer hscan
    exact ⟨hh, by simp [step, Client.event, handleMsg, handleOp, hdb, hsent]⟩
  | enter p =>
    obtain ⟨rfl, rfl⟩ : _ = h' ∧ _ = out := by simpa [hscan, Prod.ext_iff] using hs
    obtain ⟨hdb, hsent⟩ := registerUser_of_enter hh.nodup hscan
    exact ⟨hh.link (hh.remembers hscan),
      by simp [step, Client.event, handleMsg, handleOp, hdb, hsent]⟩

/-- The invariant of a run that starts with `db`. -/
structure RegisterInv (lim : ImpLimits) (clients : ι → Client) (db : Db) (c : RegisterConf ι) :
    Prop where
  heap : c.shared.Extends db
  plans : ∀ i p, i ∉ c.finished → c.plans i = some p → Remembers lim db (clients i) c.shared p

theorem registerInv_start : RegisterInv lim clients db (.start (.start db)) :=
  ⟨UserHeap.extends_start, fun _ _ _ hp => by simp [Conf.start] at hp⟩

variable [DecidableEq ι]

theorem RegisterInv.step (hI : RegisterInv lim clients db c)
    (hs : registerStep lim clients c i = some (c', o)) : RegisterInv lim clients db c' := by
  have henter : ∀ p h' out, i ∉ c.finished → c.plans i = some p →
      some (registerLink (clients i) p c.shared) = some (h', out) → h'.Extends db ∧
        ∀ j p', j ≠ i → Remembers lim db (clients j) c.shared p' →
          Remembers lim db (clients j) h' p' := by
    intro p h' out hf hp he
    obtain ⟨rfl, -⟩ := Prod.mk.inj (Option.some.inj he)
    have hq := hI.plans i p hf hp
    exact ⟨hI.heap.link hq, fun j p' _ hp' => hp'.link hq⟩
  obtain ⟨heap, plans⟩ := TwoPhase.invariant_step (V := fun h => h.Extends db)
    (P := fun i p h => Remembers lim db (clients i) h p) hI.heap hI.plans
    (fun p hl => hI.heap.remembers (Option.some.inj hl)) henter hs
  exact ⟨heap, plans⟩

omit [DecidableEq ι] in
/-- A handler whose remembered node is still the last one would remember it again. -/
theorem RegisterInv.repeats (hI : RegisterInv lim clients db c) (hl : LinksLast c i) :
    Repeats (fun i h => some (registerScan lim (clients i) h)) c i := by
  intro hf p hp
  have hr := hI.plans i p hf hp
  have hlast := hl hf p hp
  exact congrArg some
    (registerScan_eq_enter.2 ⟨hr.valid, findUser_eq_none_iff.2 (hr.new hlast), hlast⟩)

/-- If every section meets its `uprev` as the last node, the handlers do what
`registerUser` does one after the other, in the order they finish. -/
theorem registerUser_serial
    (hC : Machine.AllSteps (registerStep lim clients) LinksLast (.start (.start db)) sched)
    (hr : Machine.run (registerStep lim clients) (.start (.start db)) sched = some (c, out)) :
    Machine.run (step lim) db (c.finished.map fun i => (clients i).event) =
      some (c.shared.erase, out) := by
  have hrep : Machine.AllSteps (registerStep lim clients)
      (Repeats fun i h => some (registerScan lim (clients i) h)) (.start (.start db)) sched :=
    hC.imp (fun c i (hI : RegisterInv lim clients db c) hl => hI.repeats hl)
      (fun _ _ _ _ hI _ hs => hI.step hs) registerInv_start
  obtain ⟨order, hfin, hrun⟩ := TwoPhase.run_serial hrep hr
  obtain rfl : c.finished = order := by simpa [Conf.start] using hfin
  have herase : (UserHeap.start db).erase = db := by
    simp [UserHeap.start, UserHeap.erase, List.zipIdx_map_fst]
  rw [Machine.run_map, ← herase]
  have hsim : ∀ (h : UserHeap) (i : ι) (h' : UserHeap) (o : List Sent), h.Extends db → _ →
      h'.Extends db ∧ step lim h.erase (clients i).event = some (h'.erase, o) :=
    fun _ _ _ _ hh hs => hh.atomic hs
  exact Machine.run_refines UserHeap.erase hsim UserHeap.extends_start hrun

/-! ## Acknowledged names -/

omit [DecidableEq ι] in
/-- Registrations one after the other keep the acknowledged names in the list once. -/
theorem registered_of_serial {db' : Db} {is : List ι}
    (hr : Machine.run (Ims.step lim) db (is.map fun i => (clients i).event) = some (db', out)) :
    Registered db db' out := by
  rw [Machine.run_map] at hr
  refine Machine.run_invariant_out (o := []) (fun d i d' o o' hd hs => ?_)
    ⟨by simp, fun _ hu => hu⟩ hr
  obtain ⟨⟨ret, d₁, o₁⟩, hr, he⟩ :
      Handled lim d (clients i).event (some (registerUser lim d _ _)) := registerUser_effect
  obtain ⟨rfl, rfl⟩ : d₁ = d' ∧ o₁ = o' := by
    simpa [Ims.step, Client.event, handleMsg, handleOp, Option.some.inj hr] using hs
  cases he with
  | rejected => exact ⟨by simpa using hd.once, hd.before⟩
  | ignored => exact ⟨by simpa using hd.once, hd.before⟩
  | loggedOut hev => exact absurd hev (by simp [Event.isLogout, Client.event])
  | registered hv hn =>
    have hnew := findUser_eq_none_iff.1 hn
    refine ⟨fun n hmem => ?_, fun u hu => List.mem_append_left _ (hd.before u hu)⟩
    have hnames : (d.append (clients i).userName).names = d.names ++ [(clients i).userName] := by
      simp [Db.names, Db.append, dbUserInit]
    rw [acked_append, acked_ack, List.mem_append, List.mem_singleton] at hmem
    show (d.append (clients i).userName).names.count n = 1
    rw [hnames, List.count_append]
    rcases hmem with hmem | rfl
    · have hne : n ≠ (clients i).userName := by
        rintro rfl
        exact hnew (List.count_pos_iff.1 (by rw [hd.once _ hmem]; exact Nat.one_pos))
      rw [hd.once n hmem, List.count_eq_zero.2 (by simpa using hne)]
    · rw [List.count_eq_zero.2 hnew, List.count_singleton_self]

/-- Whom the acknowledgements so far went to, if the names are different. -/
structure AckInv (clients : ι → Client) (db : Db) (c : RegisterConf ι) (out : List Sent) :
    Prop where
  nodup : (acked out).Nodup
  other : ∀ n ∈ acked out, n ∉ db.names
  finished : ∀ n ∈ acked out, ∃ i ∈ c.finished, (clients i).userName = n

theorem AckInv.step (hinj : Function.Injective fun i => (clients i).userName)
    (hI : RegisterInv lim clients db c) (hA : AckInv clients db c o)
    (hs : registerStep lim clients c i = some (c', o')) : AckInv clients db c' (o ++ o') := by
  have hmono : ∀ n ∈ acked o, ∃ j ∈ c.finished ++ [i], (clients j).userName = n := fun n hn =>
    (hA.finished n hn).imp fun _ hj => ⟨List.mem_append_left _ hj.1, hj.2⟩
  cases acts_of_step hs with
  | rests => simpa using hA
  | looks => exact ⟨by simpa using hA.nodup, by simpa using hA.other, by simpa using hA.finished⟩
  | answers hf hp hl =>
    have hnone := (registerUser_of_answer (Option.some.inj hl)).1
    exact ⟨by simpa [hnone] using hA.nodup, by simpa [hnone] using hA.other,
      by simpa [hnone] using hmono⟩
  | @enters p s out hf hp he =>
    obtain ⟨rfl, rfl⟩ := Prod.mk.inj (Option.some.inj he)
    -- a name acknowledged before is another handler's
    have hnew : (clients i).userName ∉ acked o := by
      intro hmem
      obtain ⟨j, hj, hji⟩ := hA.finished _ hmem
      exact hf (hinj hji ▸ hj)
    refine ⟨?_, fun n hn => ?_, fun n hn => ?_⟩
    · rw [acked_append, acked_ack, List.nodup_append]
      exact ⟨hA.nodup, by simp, fun a ha b hb hab => hnew (by simp_all)⟩
    · rw [acked_append, acked_ack, List.mem_append, List.mem_singleton] at hn
      rcases hn with hn | rfl
      · exact hA.other n hn
      · exact (hI.plans i _ hf hp).other
    · rw [acked_append, acked_ack, List.mem_append, List.mem_singleton] at hn
      rcases hn with hn | rfl
      · exact hmono n hn
      · exact ⟨i, by simp, rfl⟩

/-- A step makes the list longer by the names it acknowledges at most, and by less if it
is a section that meets its `uprev` as an earlier node. -/
theorem length_step (hs : registerStep lim clients c i = some (c', o)) :
    c'.shared.users.length ≤ c.shared.users.length + (acked o).length ∧
      (¬LinksLast c i → c'.shared.users.length < c.shared.users.length + (acked o).length) := by
  cases acts_of_step hs with
  | rests hf => exact ⟨by simp, fun hn => absurd (fun hf' => absurd hf hf') hn⟩
  | looks hf hp => exact ⟨by simp, fun hn => absurd (fun _ p hp' => by simp [hp] at hp') hn⟩
  | answers hf hp => exact ⟨by simp, fun hn => absurd (fun _ p hp' => by simp [hp] at hp') hn⟩
  | @enters p s out hf hp he =>
    obtain ⟨rfl, rfl⟩ := Prod.mk.inj (Option.some.inj he)
    rw [acked_ack, List.length_singleton]
    cases hl : NodeList.link p (dbUserInit (clients i).userName, c.shared.next)
      c.shared.users with
    | none => exact ⟨by simp, fun _ => by simp⟩
    | some l =>
      refine ⟨NodeList.length_link_le hl, fun hn => Nat.lt_succ_of_le ?_⟩
      refine NodeList.length_of_link hl fun hlast => hn fun _ q hq => ?_
      obtain rfl : p = q := by simpa [hp] using hq
      exact hlast

omit [DecidableEq ι] in
/-- A list that holds the acknowledged names is long enough for all of them. -/
theorem length_of_registered (hI : RegisterInv lim clients db c) (hA : AckInv clients db c out)
    (hR : Registered db c.shared.erase out) :
    db.users.length + (acked out).length ≤ c.shared.users.length := by
  obtain ⟨new, hnew⟩ := hI.heap.names
  have hsub : acked out ⊆ new := by
    intro n hn
    have hmem : n ∈ c.shared.erase.names := by
      rw [← List.count_pos_iff, hR.once n hn]
      exact Nat.one_pos
    rw [← hnew, List.mem_append] at hmem
    exact hmem.resolve_left (hA.other n hn)
  have hle := (List.subperm_of_subset hA.nodup hsub).length_le
  have hlen := congrArg List.length hnew
  simp only [List.length_append, names_erase, List.length_map] at hlen
  omega

/-- The list is too short for the acknowledged users by `k`. -/
structure Misses (lim : ImpLimits) (clients : ι → Client) (db : Db) (k : ℕ) (c : RegisterConf ι)
    (out : List Sent) : Prop where
  inv : RegisterInv lim clients db c
  ack : AckInv clients db c out
  short : c.shared.users.length + k ≤ db.users.length + (acked out).length

variable {k : ℕ}

omit [DecidableEq ι] in
theorem misses_start : Misses lim clients db 0 (.start (.start db)) [] :=
  ⟨registerInv_start, ⟨by simp, by simp, by simp⟩, by simp [Conf.start, UserHeap.start]⟩

theorem Misses.step {k' : ℕ} (hinj : Function.Injective fun i => (clients i).userName)
    (hM : Misses lim clients db k c o) (hs : registerStep lim clients c i = some (c', o'))
    (hk : c'.shared.users.length + k' ≤ c.shared.users.length + (acked o').length + k) :
    Misses lim clients db k' c' (o ++ o') := by
  refine ⟨hM.inv.step hs, hM.ack.step hinj hM.inv hs, ?_⟩
  have hshort := hM.short
  rw [acked_append, List.length_append]
  omega

/-- Who is missing stays missing. -/
theorem Misses.run (hinj : Function.Injective fun i => (clients i).userName)
    (hM : Misses lim clients db k c o)
    (hr : Machine.run (registerStep lim clients) c sched = some (c', o')) :
    Misses lim clients db k c' (o ++ o') := by
  refine Machine.run_invariant_out (fun d i d' o o' hd hs => ?_) hM hr
  exact hd.step hinj hs (Nat.add_le_add_right (length_step hs).1 k)

/-- A section that meets its `uprev` as an earlier node loses someone. -/
theorem Misses.step_of_not_linksLast (hinj : Function.Injective fun i => (clients i).userName)
    (hM : Misses lim clients db k c o) (hn : ¬LinksLast c i)
    (hs : registerStep lim clients c i = some (c', o')) :
    Misses lim clients db (k + 1) c' (o ++ o') := by
  have hlen := (length_step hs).2 hn
  exact hM.step hinj hs (by omega)

/-! ## Any number of concurrent registrations -/

/-- While every section meets its `uprev` as the last node, no acknowledged user is lost or
duplicated. Handlers with different names lose one as soon as a section does not. -/
theorem registerUser_keeps_iff (lim : ImpLimits) (clients : ι → Client) (db : Db)
    (sched : List ι) : ∃ c out,
      Machine.run (registerStep lim clients) (.start (.start db)) sched = some (c, out) ∧
      (Machine.AllSteps (registerStep lim clients) LinksLast (.start (.start db)) sched →
        Registered db c.shared.erase out) ∧
      ((Function.Injective fun i => (clients i).userName) → Registered db c.shared.erase out →
        Machine.AllSteps (registerStep lim clients) LinksLast (.start (.start db)) sched) := by
  have htotal : ∀ (c : RegisterConf ι) (i : ι), True →
      ∃ c' o, registerStep lim clients c i = some (c', o) ∧ True := by
    intro c i _
    rw [registerStep, TwoPhase.step]
    split_ifs
    · exact ⟨_, _, rfl, trivial⟩
    · cases c.plans i <;> exact ⟨_, _, rfl, trivial⟩
  obtain ⟨c, out, hr, -⟩ := Machine.run_total htotal trivial sched
  refine ⟨c, out, hr, fun hC => registered_of_serial (registerUser_serial hC hr),
    fun hinj hR => ?_⟩
  by_contra hC
  obtain ⟨pre, i, post, c₁, o₁, rfl, hr₁, -, hn⟩ := Machine.exists_of_not_allSteps hC
  obtain ⟨c₁', o₁', o₂, hr₁', hr₂, rfl⟩ := Machine.run_append_eq_some.1 hr
  obtain ⟨rfl, rfl⟩ : c₁' = c₁ ∧ o₁' = o₁ := by simpa [hr₁'] using hr₁
  obtain ⟨c₂, o₃, o₄, hs, hr₃, rfl⟩ := Machine.run_cons_eq_some.1 hr₂
  have hM := ((misses_start.run hinj hr₁).step_of_not_linksLast hinj hn hs).run hinj hr₃
  rw [List.nil_append, List.append_assoc] at hM
  have hlen := length_of_registered hM.inv hM.ack hR
  have hshort := hM.short
  omega

/-- Two clients that register different names. -/
def aliceBob : Fin 2 → Client
  | 0 => ⟨"alice".toList, 4⟩
  | 1 => ⟨"bob".toList, 5⟩

/-- Both walk the empty list before either enters its section : both get their `ACK`, and
the second node replaces the first. -/
theorem registerUser_loses : ∃ c out,
    Machine.run (registerStep impLimits aliceBob) (.start (.start Db.empty)) [0, 1, 0, 1] =
        some (c, out) ∧
      c.finished = [0, 1] ∧ acked out = ["alice".toList, "bob".toList] ∧
      c.shared.erase.names = ["bob".toList] ∧ ¬Registered Db.empty c.shared.erase out :=
  ⟨_, _, rfl, rfl, rfl, rfl, by decide⟩

/-- The second walks the list after the first section. -/
theorem registerUser_keeps : ∃ c out,
    Machine.run (registerStep impLimits aliceBob) (.start (.start Db.empty)) [0, 0, 1, 1] =
        some (c, out) ∧
      Registered Db.empty c.shared.erase out := by
  obtain ⟨c, out, hr, hkeep, -⟩ :=
    registerUser_keeps_iff impLimits aliceBob Db.empty [0, 0, 1, 1]
  refine ⟨c, out, hr, hkeep ?_⟩
  decide

end Invariant

end Ims

end ClassProjects
