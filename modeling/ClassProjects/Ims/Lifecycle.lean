import ClassProjects.Ims.Restart
import ClassProjects.Ims.Sessions

/-!
# The life of a server

A host has a database file on its disk and, while the server runs, a database in memory. The
server is started on the file, handles messages, saves the database every now and then, and is
stopped or crashes, perhaps in the middle of a save.

`Durable` is what this is for : a database that survives, and one that does not. A start takes
the surviving one, with everybody offline, a save makes it the present one, and a crash loses
the present one. A save that is cut short leaves either the new database or one that cannot be
loaded, so that the server refuses to start.

A host is such a store only until its first start on a database that somebody has registered in
since the start before : the header of the file does not count them, and they are lost
(`Durable.Loses`). Up to there every life of a host is one of a durable store
(`life_refines`).

A life in which nobody new registers never goes wrong, whatever order starts, messages, saves,
crashes and torn saves come in. Every database in it has the users of the first file, and keeps
the representation invariant (`life_total`).
-/

namespace ClassProjects

namespace Ims

variable {lim : ImpLimits} {db db' : Db} {text : List Char} {out : List Sent}

/-! ## The host -/

/-- The file `udbaseFilename`, and the globals of the server while it runs. -/
structure Host where
  disk : List Char
  mem : Option Db
deriving DecidableEq

/-- What happens to a host. `tear k` is a crash in the middle of `udbaseWrite`, when `k`
characters of the text have reached the file. -/
inductive HostEvent
  | start
  | handle (ev : Event)
  | save
  | stop
  | crash
  | tear (k : ℕ)
deriving DecidableEq

/-- One step. An event that needs a running server, or none, changes nothing without it. -/
def Host.step (lim : ImpLimits) (h : Host) : HostEvent → Option (Host × List Sent)
  | .start =>
    match h.mem with
    | some _ => some (h, [])
    | none =>
      match serverStart lim h.disk with
      | .ok (db, text) => some (⟨text, some db⟩, [])
      | .error .failed => some (h, [])
      | .error .undefined => none
  | .handle ev =>
    match h.mem with
    | none => some (h, [])
    | some db => (Ims.step lim db ev).map fun r => (⟨h.disk, some r.1⟩, r.2)
  | .save =>
    match h.mem with
    | none => some (h, [])
    | some db => (udbaseWrite db).map fun text => (⟨text, some db⟩, [])
  | .stop =>
    match h.mem with
    | none => some (h, [])
    | some db => (udbaseWrite db).map fun text => (⟨text, none⟩, [])
  | .crash => some (⟨h.disk, none⟩, [])
  | .tear k =>
    match h.mem with
    | none => some (h, [])
    | some db => (udbaseWrite db).map fun text => (⟨text.take k, none⟩, [])

/-! ## The durable store -/

/-- The database that survives, if it can be loaded, and the one in memory. -/
structure Durable where
  stable : Option Db
  volatile : Option Db

/-- The steps of a durable store. -/
inductive Durable.Step (lim : ImpLimits) : Durable → HostEvent → Durable → List Sent → Prop
  | started {db : Db} :
      Step lim ⟨some db, none⟩ .start ⟨some db.restart, some db.restart⟩ []
  | refused : Step lim ⟨none, none⟩ .start ⟨none, none⟩ []
  | running {st : Option Db} {db : Db} : Step lim ⟨st, some db⟩ .start ⟨st, some db⟩ []
  | handled {st : Option Db} {db db' : Db} {ev : Event} {out : List Sent}
      (h : Ims.step lim db ev = some (db', out)) :
      Step lim ⟨st, some db⟩ (.handle ev) ⟨st, some db'⟩ out
  | saved {st : Option Db} {db : Db} : Step lim ⟨st, some db⟩ .save ⟨some db, some db⟩ []
  | stopped {st : Option Db} {db : Db} : Step lim ⟨st, some db⟩ .stop ⟨some db, none⟩ []
  | crashed {d : Durable} : Step lim d .crash ⟨d.stable, none⟩ []
  | torn {st st' : Option Db} {db : Db} {k : ℕ} (h : st' = none ∨ st' = some db) :
      Step lim ⟨st, some db⟩ (.tear k) ⟨st', none⟩ []
  | down {st : Option Db} {ev : HostEvent} (h : ev ≠ .start) : Step lim ⟨st, none⟩ ev ⟨st, none⟩ []

/-- A start that loses users : the saved database has more of them than the header of its file
counts. -/
def Durable.Loses (d : Durable) (ev : HostEvent) : Prop :=
  ev = .start ∧ ∃ db, d = ⟨some db, none⟩ ∧ db.unum < db.users.length

/-- The file is loaded as a saved database is, or it is not loaded. -/
def Holds (lim : ImpLimits) (disk : List Char) : Option Db → Prop
  | none => udbaseRead lim disk = .error .failed
  | some db => Served lim db ∧
      ∃ text, udbaseWrite db = some text ∧ udbaseRead lim disk = udbaseRead lim text

/-- A host and the durable store it is. -/
structure Refines (lim : ImpLimits) (h : Host) (d : Durable) : Prop where
  mem : h.mem = d.volatile
  served : ∀ db, d.volatile = some db → Served lim db
  holds : Holds lim h.disk d.stable

/-- What a start does depends on what is loaded. -/
theorem serverStart_congr {text' : List Char} (h : udbaseRead lim text = udbaseRead lim text') :
    serverStart lim text = serverStart lim text' := by
  rw [serverStart, h, serverStart]

theorem holds_saved (h : Served lim db) (hw : udbaseWrite db = some text) :
    Holds lim text (some db) :=
  ⟨h, text, hw, rfl⟩

/-- What a torn save leaves. -/
theorem holds_torn (h : Served lim db) (hw : udbaseWrite db = some text) (k : ℕ) :
    ∃ st, (st = none ∨ st = some db) ∧ Holds lim (text.take k) st := by
  rcases udbaseRead_torn lim (List.take_prefix k text) with hfail | hall
  · exact ⟨none, Or.inl rfl, hfail⟩
  · exact ⟨some db, Or.inr rfl, h, text, hw, hall⟩

/-- If all users are counted, a start keeps all of them. -/
theorem Db.kept_of_unum (h : db.unum = db.users.length) : db.kept = db.restart := by
  rw [Db.kept, h, List.take_length]
  exact congrArg Db.restart (congrArg (Db.mk db.users) h.symm)

/-- A step of a host is one of its durable store, unless it is a start that loses users. -/
theorem refines_step {h h' : Host} {d : Durable} {ev : HostEvent} (hr : Refines lim h d)
    (hl : ¬d.Loses ev) (hs : h.step lim ev = some (h', out)) :
    ∃ d', d.Step lim ev d' out ∧ Refines lim h' d' := by
  obtain ⟨disk, mem⟩ := h
  obtain ⟨stable, volatile⟩ := d
  obtain ⟨rfl, hserved, hholds⟩ := hr
  cases mem with
  | none =>
    by_cases hev : ev = .start
    · subst hev
      cases stable with
      | none =>
        have hstart : serverStart lim disk = .error .failed := by
          have hfail : udbaseRead lim disk = .error .failed := hholds
          rw [serverStart, hfail]
          rfl
        simp only [Host.step, hstart, Option.some.injEq, Prod.mk.injEq] at hs
        obtain ⟨rfl, rfl⟩ := hs
        exact ⟨_, .refused, rfl, hserved, hholds⟩
      | some db =>
        obtain ⟨hdb, text, hw, hread⟩ := hholds
        obtain ⟨hok, hbad⟩ := serverStart_served hdb hw
        have hunum : db.unum = db.users.length := by
          have hle := hdb.unum_le
          have hnot : ¬db.unum < db.users.length := fun hlt => hl ⟨rfl, db, rfl, hlt⟩
          omega
        rw [Db.kept_of_unum hunum] at hok hbad
        by_cases hres : db.restart.Resolves
        · obtain ⟨saved, hsaved, hstart⟩ := hok hres
          simp only [Host.step, serverStart_congr hread, hstart, Option.some.injEq,
            Prod.mk.injEq] at hs
          obtain ⟨rfl, rfl⟩ := hs
          have hkept := hdb.kept (Db.kept_of_unum hunum ▸ hres)
          rw [Db.kept_of_unum hunum] at hkept
          exact ⟨_, .started, rfl, fun db' h => Option.some.inj h ▸ hkept,
            holds_saved hkept hsaved⟩
        · simp [Host.step, serverStart_congr hread, hbad hres] at hs
    · have hidle : h' = ⟨disk, none⟩ ∧ out = [] := by
        cases ev with
        | start => exact absurd rfl hev
        | handle ev | save | stop | crash | tear k =>
          obtain ⟨rfl, rfl⟩ := Prod.mk.inj (Option.some.inj hs)
          exact ⟨rfl, rfl⟩
      obtain ⟨rfl, rfl⟩ := hidle
      exact ⟨_, .down hev, rfl, hserved, hholds⟩
  | some db =>
    have hdb := hserved db rfl
    have hwrite : ∀ {f : List Char → Host × List Sent},
        (udbaseWrite db).map f = some (h', out) →
          ∃ text, udbaseWrite db = some text ∧ f text = (h', out) :=
      fun h => Option.map_eq_some_iff.1 h
    cases ev with
    | start =>
      obtain ⟨rfl, rfl⟩ := Prod.mk.inj (Option.some.inj hs)
      exact ⟨_, .running, rfl, hserved, hholds⟩
    | handle ev =>
      obtain ⟨⟨db', out'⟩, hstep, heq⟩ := Option.map_eq_some_iff.1 hs
      obtain ⟨rfl, rfl⟩ := Prod.mk.inj heq
      exact ⟨_, .handled hstep, rfl, fun db'' h => Option.some.inj h ▸ served_step hdb hstep,
        hholds⟩
    | save =>
      obtain ⟨text, hw, heq⟩ := hwrite hs
      obtain ⟨rfl, rfl⟩ := Prod.mk.inj heq
      exact ⟨_, .saved, rfl, hserved, holds_saved hdb hw⟩
    | stop =>
      obtain ⟨text, hw, heq⟩ := hwrite hs
      obtain ⟨rfl, rfl⟩ := Prod.mk.inj heq
      exact ⟨_, .stopped, rfl, by simp, holds_saved hdb hw⟩
    | crash =>
      obtain ⟨rfl, rfl⟩ := Prod.mk.inj (Option.some.inj hs)
      exact ⟨_, .crashed, rfl, by simp, hholds⟩
    | tear k =>
      obtain ⟨text, hw, heq⟩ := hwrite hs
      obtain ⟨rfl, rfl⟩ := Prod.mk.inj heq
      obtain ⟨st, hst, htorn⟩ := holds_torn hdb hw k
      exact ⟨_, .torn hst, rfl, by simp, htorn⟩

/-! ## The first file -/

theorem restart_of_offline (h : db.Offline) : db.restart = db := by
  obtain ⟨us, n⟩ := db
  have hus : us.map (fun u => u.rebind .not (-1)) = us := by
    refine (List.map_congr_left fun u hu => ?_).trans (List.map_id us)
    obtain ⟨name, active, connfd, flist⟩ := u
    obtain ⟨rfl, rfl⟩ : active = .not ∧ connfd = -1 := h _ hu
    rfl
  rw [Db.restart, hus]

/-- Nobody is active in a database that was just loaded. -/
theorem offline_of_udbaseRead (h : udbaseRead lim text = .ok db) : db.Offline := by
  unfold udbaseRead at h
  split at h
  · cases h
  split at h
  · cases h
  split at h
  · cases h
  obtain ⟨names, -, h⟩ := bind_eq_ok.1 h
  obtain ⟨flists, -, h⟩ := bind_eq_ok.1 h
  obtain rfl := Except.ok.inj h
  intro u hu
  obtain ⟨⟨ucur, flist⟩, hzip, rfl⟩ := List.mem_map.1 hu
  obtain ⟨name, -, rfl⟩ := List.mem_map.1 (List.of_mem_zip hzip).1
  exact ⟨rfl, rfl⟩

/-- A host with a well-formed file is a store with the database in it. -/
theorem refines_start (hread : udbaseRead lim text = .ok db) (hwf : WellFormed lim db) :
    Refines lim ⟨text, none⟩ ⟨some db, none⟩ := by
  have hserved := served_of_udbaseRead hread hwf
  obtain ⟨-, hlen, hlt, -⟩ := udbaseRead_ok hread
  have hsave : Savable lim db := by
    refine ⟨hlen.symm, hlt, hserved.names, fun u hu e he => ?_⟩
    obtain ⟨name, hname, hfriend⟩ := hserved.resolves u hu e he
    exact ⟨name, hname, hfriend, (hwf.names name hname).2⟩
  obtain ⟨saved, hw, hload⟩ := udbaseRead_udbaseWrite hsave
  rw [restart_of_offline (offline_of_udbaseRead hread)] at hload
  exact ⟨rfl, by simp, hserved, saved, hw, hread.trans hload.symm⟩

/-- A start that loses users leaves, in memory and on the disk, those that the header counts. -/
theorem start_of_loses {h h' : Host} {d : Durable} (hr : Refines lim h d) (hl : d.Loses .start)
    (hs : h.step lim .start = some (h', out)) :
    ∃ saved, d = ⟨some saved, none⟩ ∧ saved.unum < saved.users.length ∧
      h'.mem = some saved.kept ∧ Holds lim h'.disk (some saved.kept) := by
  obtain ⟨-, saved, rfl, hlt⟩ := hl
  obtain ⟨disk, mem⟩ := h
  obtain ⟨rfl, -, hdb, text, hw, hread⟩ := hr
  obtain ⟨hok, hbad⟩ := serverStart_served hdb hw
  by_cases hres : saved.kept.Resolves
  · obtain ⟨text', hsaved, hstart⟩ := hok hres
    simp only [Host.step, serverStart_congr hread, hstart, Option.some.injEq, Prod.mk.injEq] at hs
    obtain ⟨rfl, -⟩ := hs
    exact ⟨saved, rfl, hlt, rfl, holds_saved (hdb.kept hres) hsaved⟩
  · simp [Host.step, serverStart_congr hread, hbad hres] at hs

/-! ## A life without newcomers -/

theorem Db.Rep.restart (h : db.Rep) : db.restart.Rep where
  names := Db.names_restart.symm ▸ h.names
  active_iff := by simp [Db.restart, DbUser.rebind]
  no_self := by simpa [Db.restart, DbUser.rebind] using h.no_self
  friends := by simpa [Db.restart, DbUser.rebind] using h.friends
  resolves := by simpa [Db.restart, DbUser.rebind] using h.resolves
  mirror_yes := by simpa [Db.restart, DbUser.rebind] using h.mirror_yes
  mirror_requested := by simpa [Db.restart, DbUser.rebind] using h.mirror_requested

/-- A consistent database of certain users, all of them counted. -/
structure Steady (names : List CStr) (db : Db) : Prop where
  rep : db.Rep
  names_eq : db.names = names
  unum : db.unum = db.users.length

/-- Both databases of a store are of certain users. -/
structure Durable.Steady (names : List CStr) (d : Durable) : Prop where
  stable : ∀ db, d.stable = some db → Ims.Steady names db
  volatile : ∀ db, d.volatile = some db → Ims.Steady names db

/-- The event registers nobody who is not there. -/
def NoNewcomer (lim : ImpLimits) (names : List CStr) (ev : HostEvent) : Prop :=
  ∀ c n, ev = .handle (.msg c (some (.op (.register n)))) → validUserName lim n = false ∨ n ∈ names

variable {names : List CStr}

theorem Steady.kept (h : Steady names db) : db.kept = db.restart :=
  Db.kept_of_unum h.unum

theorem Steady.restart (h : Steady names db) : Steady names db.restart where
  rep := h.rep.restart
  names_eq := Db.names_restart.trans h.names_eq
  unum := by simpa [Db.restart] using h.unum

/-- A start on a steady database succeeds. -/
theorem Steady.resolves_kept (h : Steady names db) : db.kept.Resolves := by
  rw [h.kept]
  intro u hu e he
  obtain ⟨v, hv, hfriend⟩ := h.rep.restart.resolves u hu e he
  exact ⟨v.name, List.mem_map_of_mem hv, hfriend⟩

theorem steady_step {ev : Event} (h : Steady names db) (hno : NoNewcomer lim names (.handle ev))
    (hs : step lim db ev = some (db', out)) : Steady names db' := by
  obtain ⟨hunum, -, new, hnames, hnew, -⟩ := users_of_step hs
  have hnil : new = [] := by
    refine List.eq_nil_iff_forall_not_mem.2 fun n hn => ?_
    obtain ⟨c, rfl, hv, hnot⟩ := hnew n hn
    rcases hno c n rfl with hfalse | hmem
    · rw [hv] at hfalse
      cases hfalse
    · exact hnot (h.names_eq ▸ hmem)
  rw [hnil, List.append_nil] at hnames
  have hlen := congrArg List.length hnames
  rw [List.length_map, List.length_map] at hlen
  exact ⟨rep_step h.rep hs, hnames.trans h.names_eq, by rw [hunum, h.unum, hlen]⟩

/-- A step of the store keeps both databases steady. -/
theorem durable_steady {d d' : Durable} {ev : HostEvent} (h : d.Steady names)
    (hno : NoNewcomer lim names ev) (hs : d.Step lim ev d' out) : d'.Steady names := by
  cases hs with
  | @started db =>
    have hdb := (h.stable db rfl).restart
    exact ⟨fun db' h' => Option.some.inj h' ▸ hdb, fun db' h' => Option.some.inj h' ▸ hdb⟩
  | refused => exact h
  | running => exact h
  | @handled st db db' ev out hs =>
    exact ⟨h.stable, fun db'' h' => Option.some.inj h' ▸ steady_step (h.volatile db rfl) hno hs⟩
  | saved => exact ⟨h.volatile, h.volatile⟩
  | stopped => exact ⟨h.volatile, by simp⟩
  | crashed => exact ⟨h.stable, by simp⟩
  | torn hst =>
    rcases hst with rfl | rfl
    · exact ⟨by simp, by simp⟩
    · exact ⟨h.volatile, by simp⟩
  | down => exact h

theorem runs_steady {d d' : Durable} {evs : List HostEvent}
    (hr : Machine.Runs (Durable.Step lim) d evs d' out) (h : d.Steady names)
    (hno : ∀ ev ∈ evs, NoNewcomer lim names ev) : d'.Steady names := by
  induction hr with
  | nil => exact h
  | cons hs _ ih =>
    obtain ⟨hev, hno⟩ := List.forall_mem_cons.1 hno
    exact ih (durable_steady h hev hs) hno

/-- No start of a steady store loses users. -/
theorem Durable.Steady.not_loses {d : Durable} (h : d.Steady names) (ev : HostEvent) :
    ¬d.Loses ev := by
  rintro ⟨-, db, rfl, hlt⟩
  have := (h.stable db rfl).unum
  omega

/-- A host whose store is steady does not go wrong. -/
theorem host_step_total {h : Host} {d : Durable} (hr : Refines lim h d) (hd : d.Steady names)
    (ev : HostEvent) : ∃ h' out, h.step lim ev = some (h', out) := by
  obtain ⟨disk, mem⟩ := h
  obtain ⟨stable, volatile⟩ := d
  obtain ⟨rfl, hserved, hholds⟩ := hr
  cases mem with
  | none =>
    cases ev with
    | start =>
      cases stable with
      | none =>
        have hfail : udbaseRead lim disk = .error .failed := hholds
        have hstart : serverStart lim disk = .error .failed := by
          rw [serverStart, hfail]
          rfl
        simp only [Host.step, hstart]
        exact ⟨_, _, rfl⟩
      | some db =>
        obtain ⟨hdb, text, hw, hread⟩ := hholds
        obtain ⟨saved, -, hstart⟩ :=
          (serverStart_served hdb hw).1 (hd.stable db rfl).resolves_kept
        simp only [Host.step, serverStart_congr hread, hstart]
        exact ⟨_, _, rfl⟩
    | handle ev | save | stop | crash | tear k => exact ⟨_, _, rfl⟩
  | some db =>
    obtain ⟨text, hw⟩ := udbaseWrite_of_resolves (hserved db rfl).resolves
    cases ev with
    | start | crash => exact ⟨_, _, rfl⟩
    | handle ev =>
      obtain ⟨db', out, hs, -⟩ := step_total (hd.volatile db rfl).rep lim ev
      simp only [Host.step, hs, Option.map_some]
      exact ⟨_, _, rfl⟩
    | save | stop | tear k =>
      simp only [Host.step, hw, Option.map_some]
      exact ⟨_, _, rfl⟩

/-- A host that is a steady store. -/
def SteadyHost (lim : ImpLimits) (names : List CStr) (h : Host) : Prop :=
  ∃ d, Refines lim h d ∧ d.Steady names

/-- Every life of a host, from a well-formed file on, is one of a durable store that holds the
database of the file : the server has in memory what the store has, and what the disk is loaded
as is the surviving database, if it is loaded at all. Or it is one up to a start that loses
users, behind which the server runs without them. -/
theorem life_refines (hread : udbaseRead lim text = .ok db) (hwf : WellFormed lim db)
    {evs : List HostEvent} {h' : Host}
    (hr : Machine.run (Host.step lim) ⟨text, none⟩ evs = some (h', out)) :
    (∃ d', Machine.Runs (Durable.Step lim) ⟨some db, none⟩ evs d' out ∧
      h'.mem = d'.volatile ∧ Holds lim h'.disk d'.stable) ∨
    ∃ pre post h₁ saved out₁, evs = pre ++ .start :: post ∧
      Machine.run (Host.step lim) ⟨text, none⟩ pre = some (h₁, out₁) ∧
      Machine.Runs (Durable.Step lim) ⟨some db, none⟩ pre ⟨some saved, none⟩ out₁ ∧
      h₁.mem = none ∧ Holds lim h₁.disk (some saved) ∧ saved.unum < saved.users.length ∧
      ∃ h₂ out₂, h₁.step lim .start = some (h₂, out₂) ∧ h₂.mem = some saved.kept ∧
        saved.kept.names = saved.names.take saved.unum := by
  rcases Machine.run_simulated (P := Durable.Loses) (fun _ _ _ _ _ => refines_step)
    (refines_start hread hwf) hr with
    ⟨d', hruns, href⟩ | ⟨pre, ev, post, h₁, d₁, out₁, rfl, hrun, hruns, href, hl, h₂, out₂, hs⟩
  · exact Or.inl ⟨d', hruns, href.mem, href.holds⟩
  · obtain rfl := hl.1
    obtain ⟨saved, rfl, hlt, hmem, -⟩ := start_of_loses href hl hs
    exact Or.inr ⟨pre, post, h₁, saved, out₁, rfl, hrun, hruns, href.mem, href.holds, hlt, h₂,
      out₂, hs, hmem, Db.names_kept⟩

/-- A save, a crash, a start, and a crash in the middle of a save. -/
def hardLife : List HostEvent :=
  [.start, .handle (.msg 4 (some (.op (.login "alice".toList)))),
    .handle (.msg 4 (some (.op (.friendRequest "bob".toList)))), .save, .crash, .start, .tear 8,
    .start]

/-- The file of two users. -/
def duoFile : List Char :=
  "2 users:\nalice\n.\nbob\n.\n".toList

/-- Nobody registers in this life, so no start of it loses users. -/
theorem life_refines_hardLife : ∃ h' out d',
    Machine.run (Host.step impLimits) ⟨duoFile, none⟩ hardLife = some (h', out) ∧
      Machine.Runs (Durable.Step impLimits) ⟨some Db.offlineDuo, none⟩ hardLife d' out ∧
      d'.volatile = none := by
  rcases @life_refines impLimits Db.offlineDuo duoFile _ rfl (by decide) hardLife _ rfl with
    ⟨d', hruns, hmem, -⟩ | ⟨pre, post, h₁, saved, out₁, hevs, -, hruns, -, -, hlt, -⟩
  · exact ⟨_, _, d', rfl, hruns, hmem.symm⟩
  · have hduo : Steady Db.offlineDuo.names Db.offlineDuo := ⟨by decide, rfl, rfl⟩
    have hpre : ∀ ev ∈ pre, NoNewcomer impLimits Db.offlineDuo.names ev := by
      have hall : ∀ ev ∈ hardLife, NoNewcomer impLimits Db.offlineDuo.names ev := by
        simp [hardLife, NoNewcomer]
      exact fun ev hev => hall ev (hevs ▸ List.mem_append_left _ hev)
    have hsteady := runs_steady hruns
      (⟨fun db h => Option.some.inj h ▸ hduo, by simp⟩ : Durable.Steady _ _) hpre
    exact (hsteady.not_loses .start ⟨rfl, saved, rfl, hlt⟩).elim

/-- Carol registers and is saved, and gone behind the next start. -/
example : (Machine.run (Host.step impLimits) ⟨duoFile, none⟩ [.start,
    .handle (.msg 4 (some (.op (.register "carol".toList)))), .stop, .start]).map
      (fun r => r.1.mem.map Db.names) = some (some ["alice".toList, "bob".toList]) :=
  rfl

/-- A life in which nobody new registers never goes wrong, whatever order starts, messages, saves,
stops, crashes and torn saves come in. The server always has the users of the first file, and a
consistent database. -/
theorem life_total (hread : udbaseRead lim text = .ok db) (hwf : WellFormed lim db)
    (hrep : db.Rep) {evs : List HostEvent} (hno : ∀ ev ∈ evs, NoNewcomer lim db.names ev) :
    ∃ h' out, Machine.run (Host.step lim) ⟨text, none⟩ evs = some (h', out) ∧
      ∀ db', h'.mem = some db' → db'.Rep ∧ db'.names = db.names := by
  have hsteady : Steady db.names db := ⟨hrep, rfl, (udbaseRead_ok hread).2.1.symm⟩
  -- the store the host refines is steady
  have hstep : ∀ h ev, SteadyHost lim db.names h → NoNewcomer lim db.names ev →
      ∃ h' out, h.step lim ev = some (h', out) ∧ SteadyHost lim db.names h' := by
    rintro h ev ⟨d, href, hd⟩ hev
    obtain ⟨h', out, hs⟩ := host_step_total href hd ev
    obtain ⟨d', hstep, href'⟩ := refines_step href (hd.not_loses ev) hs
    exact ⟨h', out, hs, d', href', durable_steady hd hev hstep⟩
  have hstart : SteadyHost lim db.names ⟨text, none⟩ :=
    ⟨_, refines_start hread hwf, fun db' h => Option.some.inj h ▸ hsteady, by simp⟩
  have hC : Machine.AllSteps (Host.step lim) (fun _ ev => NoNewcomer lim db.names ev)
      ⟨text, none⟩ evs := by
    rw [Machine.allSteps_iff]
    rintro pre ev post rfl h' o -
    exact hno ev (by simp)
  obtain ⟨h', out, hr, d, href, hd⟩ := Machine.run_total_of_allSteps hstep hstart hC
  refine ⟨h', out, hr, fun db' hmem => ?_⟩
  have hdb := hd.volatile db' (href.mem ▸ hmem)
  exact ⟨hdb.rep, hdb.names_eq⟩

theorem life_total_hardLife : ∃ h' out,
    Machine.run (Host.step impLimits) ⟨duoFile, none⟩ hardLife = some (h', out) ∧
      ∀ db', h'.mem = some db' → db'.Rep ∧ db'.names = ["alice".toList, "bob".toList] :=
  @life_total impLimits Db.offlineDuo duoFile rfl (by decide) (by decide) hardLife
    (by simp [hardLife, NoNewcomer])

end Ims

end ClassProjects
