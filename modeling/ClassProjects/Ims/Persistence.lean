import ClassProjects.Ims.Frame
import ClassProjects.Ims.Storage

/-!
# What a restart keeps

A database is loaded, a run of operations is handled, the database is saved and loaded
again. No operation breaks an entry's pointer, and a name once there stays
(`names_of_run`). But `registerUser` links a user without counting him, so the header that
`udbaseWrite` saves is the count of the users that were loaded, and the loader stops
there. Exactly the runs that register nobody are kept by a restart (`persists_iff`).
-/

namespace ClassProjects

namespace Ims

open KeyedList Lines

variable {lim : ImpLimits} {db db' : Db} {text : List Char} {n : ℕ} {file : List (List Char)}

/-! ## What the loader returns -/

theorem bind_eq_ok {α β : Type} {x : Except LoadError α} {f : α → Except LoadError β} {y : β} :
    x >>= f = .ok y ↔ ∃ a, x = .ok a ∧ f a = .ok y := by
  cases x with
  | error e => simp [bind, Except.bind]
  | ok a => simp [bind, Except.bind]

theorem nul_notMem_of_getliner {wantlen : ℕ} {l : List Char} {line : CStr}
    (h : getliner wantlen l = some line) : '\x00' ∉ line := by
  unfold getliner at h
  split_ifs at h
  rw [← Option.some.inj h]
  exact nul_notMem_cstr _

theorem readUsers_ok {names : List CStr} (h : readUsers n file = .ok names) :
    names.length = n ∧ ∀ name ∈ names, '\x00' ∉ name := by
  induction n generalizing file names with
  | zero =>
    obtain rfl := Except.ok.inj h
    simp
  | succ n ih =>
    cases file with
    | nil => cases h
    | cons l file =>
      unfold readUsers at h
      split at h
      · cases h
      · rename_i name hname
        obtain ⟨file', -, h⟩ := bind_eq_ok.1 h
        obtain ⟨names', hread, h⟩ := bind_eq_ok.1 h
        obtain rfl := Except.ok.inj h
        obtain ⟨hlen, hnul⟩ := ih hread
        exact ⟨by simp [hlen], List.forall_mem_cons.2 ⟨nul_notMem_of_getliner hname, hnul⟩⟩

theorem readFlists_ok {flists : List (List DbFriend)} (h : readFlists lim db n file = .ok flists) :
    flists.length = n := by
  induction n generalizing file flists with
  | zero =>
    obtain rfl := Except.ok.inj h
    rfl
  | succ n ih =>
    cases file with
    | nil => cases h
    | cons l file =>
      unfold readFlists at h
      split at h
      · cases h
      · obtain ⟨⟨flist, file'⟩, -, h⟩ := bind_eq_ok.1 h
        obtain ⟨rest, hread, h⟩ := bind_eq_ok.1 h
        obtain rfl := Except.ok.inj h
        rw [List.length_cons, ih hread]

theorem scanUnsigned_lt {line : CStr} (h : scanUnsigned line = some n) : n < 2 ^ 32 := by
  unfold scanUnsigned at h
  simp only at h
  split_ifs at h <;> rw [← Option.some.inj h] <;> exact Nat.mod_lt _ (by decide)

/-- A loaded database has as many users as its header says, with C strings for names. -/
theorem udbaseRead_ok (h : udbaseRead lim text = .ok db) :
    (∃ l file line, lines text = l :: file ∧ getliner 8 l = some line ∧
      scanUnsigned line = some db.unum) ∧
      db.users.length = db.unum ∧ db.unum < 2 ^ 32 ∧ ∀ name ∈ db.names, '\x00' ∉ name := by
  unfold udbaseRead at h
  split at h
  · cases h
  rename_i l file hlines
  split at h
  · cases h
  rename_i line hline
  split at h
  · cases h
  rename_i nuser hscan
  obtain ⟨names, hnames, h⟩ := bind_eq_ok.1 h
  obtain ⟨flists, hflists, h⟩ := bind_eq_ok.1 h
  obtain rfl := Except.ok.inj h
  obtain ⟨hlen, hnul⟩ := readUsers_ok hnames
  have hlen' := readFlists_ok hflists
  refine ⟨⟨l, file, line, hlines, hline, hscan⟩, ?_, scanUnsigned_lt hscan, fun name hname => ?_⟩
  · simp [hlen, hlen']
  · obtain ⟨u, hu, rfl⟩ := List.mem_map.1 hname
    obtain ⟨⟨ucur, flist⟩, hzip, rfl⟩ := List.mem_map.1 hu
    obtain ⟨name, hmem, rfl⟩ := List.mem_map.1 (List.of_mem_zip hzip).1
    exact hnul name hmem

/-- What was saved is loaded, if at all, with as many users as the header says. -/
theorem length_of_reload {saved : List Char} {db'' : Db} (hw : udbaseWrite db' = some saved)
    (hr : udbaseRead lim saved = .ok db'') (hlt : db'.unum < 2 ^ 32) :
    db''.users.length = db'.unum := by
  obtain ⟨blocks, -, rfl⟩ := Option.map_eq_some_iff.1 hw
  obtain ⟨⟨l, file, line, hlines, hline, hscan⟩, hlen, -, -⟩ := udbaseRead_ok hr
  have hfirst : unlines (headerLine db'.unum :: blocks.flatten) =
      headerLine db'.unum ++ '\n' :: unlines blocks.flatten := by
    simp [unlines]
  rw [← headerLine, hfirst, lines_append_newline (newline_notMem_headerLine _)] at hlines
  obtain ⟨rfl, -⟩ := List.cons.inj hlines
  rw [getliner_headerLine] at hline
  obtain rfl := Option.some.inj hline
  rw [scanUnsigned_headerLine hlt] at hscan
  rw [hlen, Option.some.inj hscan]

/-! ## What a run does to the names -/

/-- Every entry points to a user. -/
def Db.Resolves (db : Db) : Prop :=
  ∀ u ∈ db.users, ∀ e ∈ u.flist, ∃ name ∈ db.names, e.friend = some name

theorem Db.Resolves.of_points (h : db.Resolves) {e : DbFriend} (he : db.Points e) :
    ∃ name ∈ db.names, e.friend = some name := by
  rcases he with ⟨u, hu, e', he', heq⟩ | ⟨u, hu, heq⟩
  · rw [heq]
    exact h u hu e' he'
  · exact ⟨u.name, List.mem_map_of_mem hu, heq⟩

/-- The friend operations leave the users alone, and every entry points to one of them. -/
theorem Edit.users (h : Edit db db') : db'.names = db.names ∧ db'.unum = db.unum ∧
    (db.Resolves → db'.Resolves) := by
  induction h with
  | refl => exact ⟨rfl, rfl, id⟩
  | @setFlist db' p l _ hl ih =>
    obtain ⟨hn, hu, hr⟩ := ih
    refine ⟨Db.names_setFlist.trans hn, hu, fun hres u hu e he => ?_⟩
    rw [Db.names_setFlist, hn]
    rcases mem_updateFirst hu with hu | ⟨v, hv, rfl⟩
    · rw [← hn]
      exact hr hres u hu e he
    · exact hres.of_points (hl e he)

theorem resolves_updateUser {p : DbUser → Bool} {f : DbUser → DbUser} (h : db.Resolves)
    (hn : ∀ u, (f u).name = u.name) (hl : ∀ u, (f u).flist = u.flist) :
    (db.updateUser p f).Resolves := by
  intro u hu e he
  rw [Db.names_updateUser hn]
  rcases mem_updateFirst hu with hu | ⟨v, hv, rfl⟩
  · exact h u hu e he
  · rw [hl] at he
    exact h v (List.mem_of_find?_eq_some hv) e he

/-- What a step does to the users : it links no more than the new user it registers. -/
theorem users_of_step {ev : Event} {out : List Sent} (hs : step lim db ev = some (db', out)) :
    db'.unum = db.unum ∧ (db.Resolves → db'.Resolves) ∧ ∃ new, db'.names = db.names ++ new ∧
      (∀ n ∈ new, ∃ c, ev = .msg c (some (.op (.register n))) ∧ validUserName lim n = true ∧
        n ∉ db.names) ∧
      ∀ c n, ev = .msg c (some (.op (.register n))) → validUserName lim n = true →
        n ∈ db'.names := by
  have hkept : ∀ {p : DbUser → Bool} {a fd}, (db.updateUser p fun u => u.rebind a fd).names =
      db.names ++ [] := by
    intro p a fd
    rw [List.append_nil, Db.names_updateUser fun _ => DbUser.name_rebind]
  cases change_of_step hs with
  | edited h hreg =>
    obtain ⟨hn, hu, hr⟩ := h.users
    refine ⟨hu, hr, [], by rw [hn, List.append_nil], by simp, fun c n hev hv => ?_⟩
    rcases hreg c n hev with hno | hmem
    · rw [hno] at hv
      cases hv
    · rwa [hn]
  | @registered c n _ hv hn =>
    have hnames : (db.append n).names = db.names ++ [n] := by
      simp [Db.names, Db.append, dbUserInit]
    refine ⟨rfl, fun hres u hu e he => ?_, [n], hnames, ?_, ?_⟩
    · rw [hnames]
      rcases List.mem_append.1 hu with hu | hu
      · obtain ⟨name, hname, heq⟩ := hres u hu e he
        exact ⟨name, List.mem_append_left _ hname, heq⟩
      · rw [List.mem_singleton.1 hu] at he
        cases he
    · intro m hm
      obtain rfl := List.mem_singleton.1 hm
      exact ⟨c, rfl, hv, fun hmem => by simp [Db.mem_names, hn] at hmem⟩
    · intro c' m hev _
      obtain ⟨-, hpm⟩ := Event.msg.inj hev
      obtain rfl : n = m := by simpa using hpm
      simp [hnames]
  | loggedIn =>
    exact ⟨rfl, fun h => resolves_updateUser h (fun _ => rfl) fun _ => rfl, [], hkept,
      by simp, by simp⟩
  | loggedOut hev =>
    refine ⟨rfl, fun h => resolves_updateUser h (fun _ => rfl) fun _ => rfl, [], hkept, by simp,
      fun c n heq => ?_⟩
    rw [heq] at hev
    cases hev

/-- What a run does to the users : it links the new names it registers, and only those. -/
theorem users_of_run {evs : List Event} {out : List Sent}
    (hrun : Machine.run (step lim) db evs = some (db', out)) :
    db'.unum = db.unum ∧ (db.Resolves → db'.Resolves) ∧ ∃ new, db'.names = db.names ++ new ∧
      (∀ n ∈ new, ∃ c, .msg c (some (.op (.register n))) ∈ evs ∧ validUserName lim n = true ∧
        n ∉ db.names) ∧
      ∀ c n, .msg c (some (.op (.register n))) ∈ evs → validUserName lim n = true →
        n ∈ db'.names := by
  induction evs generalizing db out with
  | nil =>
    obtain ⟨rfl, -⟩ : db = db' ∧ [] = out := by simpa using hrun
    exact ⟨rfl, id, [], by simp, by simp, by simp⟩
  | cons ev evs ih =>
    obtain ⟨db₁, o₁, o₂, hs, hr, -⟩ := Machine.run_cons_eq_some.1 hrun
    obtain ⟨hu₁, hres₁, new₁, hn₁, hnew₁, hreg₁⟩ := users_of_step hs
    obtain ⟨hu, hres, new, hn, hnew, hreg⟩ := ih hr
    refine ⟨hu.trans hu₁, fun h => hres (hres₁ h), new₁ ++ new, ?_, fun n hmem => ?_,
      fun c n hmem hv => ?_⟩
    · rw [hn, hn₁, List.append_assoc]
    · rcases List.mem_append.1 hmem with hmem | hmem
      · obtain ⟨c, rfl, hv, hno⟩ := hnew₁ n hmem
        exact ⟨c, List.mem_cons_self, hv, hno⟩
      · obtain ⟨c, hev, hv, hno⟩ := hnew n hmem
        rw [hn₁, List.mem_append, not_or] at hno
        exact ⟨c, List.mem_cons_of_mem _ hev, hv, hno.1⟩
    · rcases List.mem_cons.1 hmem with heq | hmem
      · rw [hn]
        exact List.mem_append_left _ (hreg₁ c n heq.symm hv)
      · exact hreg c n hmem hv

/-! ## Saving and starting again -/

/-- What makes a loaded database well-formed : words for names that fit the reader's array,
and users behind all entries. -/
structure WellFormed (lim : ImpLimits) (db : Db) : Prop where
  names : ∀ name ∈ db.names, Word name ∧ name.length < lim.nameMaxlen
  resolves : db.Resolves

instance (lim : ImpLimits) (db : Db) : Decidable (WellFormed lim db) :=
  decidable_of_iff ((∀ name ∈ db.names, Word name ∧ name.length < lim.nameMaxlen) ∧
      ∀ u ∈ db.users, ∀ e ∈ u.flist, ∃ name ∈ db.names, e.friend = some name)
    ⟨fun h => ⟨h.1, h.2⟩, fun h => ⟨h.names, h.resolves⟩⟩

/-- The database is saved, and loaded again with the same users in the same order, with
the same entries, and nobody active. -/
def Persists (lim : ImpLimits) (db : Db) : Prop :=
  ∃ saved db', udbaseWrite db = some saved ∧ udbaseRead lim saved = .ok db' ∧
    db'.users = db.restart.users

/-- After any run from a loaded database, saving and loading it again keeps all users and
friendships exactly if the run registered nobody. -/
theorem persists_iff (hread : udbaseRead lim text = .ok db) (hwf : WellFormed lim db)
    {evs : List Event} {out : List Sent}
    (hrun : Machine.run (step lim) db evs = some (db', out)) :
    Persists lim db' ↔ ∀ c n, .msg c (some (.op (.register n))) ∈ evs →
      validUserName lim n = false ∨ n ∈ db.names := by
  obtain ⟨-, hlen, hlt, hnul⟩ := udbaseRead_ok hread
  obtain ⟨hunum, hres, new, hn, hnew, hreg⟩ := users_of_run hrun
  have hlen' : db'.users.length = db.unum + new.length := by
    simpa [Db.names, ← hlen] using congrArg List.length hn
  constructor
  · rintro ⟨saved, db'', hw, hr, husers⟩ c n hev
    -- the header counts the users that were loaded, so nobody can be new
    have hreload := length_of_reload hw hr (by omega)
    have hnil : new = [] := by
      refine List.eq_nil_of_length_eq_zero ?_
      have : db''.users.length = db'.users.length := by simp [husers, Db.restart]
      omega
    cases hv : validUserName lim n with
    | false => exact Or.inl rfl
    | true =>
      have hmem := hreg c n hev hv
      rw [hn, hnil, List.append_nil] at hmem
      exact Or.inr hmem
  · intro hno
    have hnil : new = [] := by
      refine List.eq_nil_iff_forall_not_mem.2 fun n hmem => ?_
      obtain ⟨c, hev, hv, hnot⟩ := hnew n hmem
      rcases hno c n hev with hfalse | hmem'
      · rw [hv] at hfalse
        cases hfalse
      · exact hnot hmem'
    rw [hnil, List.append_nil] at hn
    have hsave : Savable lim db' := by
      refine ⟨?_, by omega, fun name hname => ?_, fun u hu e he => ?_⟩
      · rw [hlen', hnil, hunum]
        rfl
      · rw [hn] at hname
        exact ⟨(hwf.names name hname).1, hnul name hname⟩
      · obtain ⟨name, hname, heq⟩ := hres hwf.resolves u hu e he
        exact ⟨name, hname, heq, (hwf.names name (hn ▸ hname)).2⟩
    obtain ⟨saved, hw, hr⟩ := udbaseRead_udbaseWrite hsave
    exact ⟨saved, db'.restart, hw, hr, rfl⟩

/-- One user asks another, and registers a name that is taken. -/
theorem persists_duo : ∃ db' out, Machine.run (step impLimits)
    ⟨[dbUserInit "alice".toList, dbUserInit "bob".toList], 2⟩
    [.msg 4 (some (.op (.login "alice".toList))),
      .msg 4 (some (.op (.friendRequest "bob".toList))),
      .msg 4 (some (.op (.register "bob".toList)))] = some (db', out) ∧
    Persists impLimits db' := by
  have hread : udbaseRead impLimits "2 users:\nalice\n.\nbob\n.\n".toList =
      .ok ⟨[dbUserInit "alice".toList, dbUserInit "bob".toList], 2⟩ := by rfl
  have hrep : Db.Rep ⟨[dbUserInit "alice".toList, dbUserInit "bob".toList], 2⟩ := by decide
  obtain ⟨db', out, hrun, -⟩ := Machine.run_total (fun _ ev hdb => step_total hdb impLimits ev) hrep
    [.msg 4 (some (.op (.login "alice".toList))),
      .msg 4 (some (.op (.friendRequest "bob".toList))),
      .msg 4 (some (.op (.register "bob".toList)))]
  refine ⟨db', out, hrun, (persists_iff hread (by decide) hrun).2 fun c n hev => Or.inr ?_⟩
  obtain ⟨-, rfl⟩ : c = 4 ∧ n = "bob".toList := by simpa using hev
  decide

/-- Whoever registers is lost. -/
theorem not_persists : ¬∀ (text : List Char) (db db' : Db) (evs : List Event) (out : List Sent),
    udbaseRead impLimits text = .ok db → WellFormed impLimits db →
      Machine.run (step impLimits) db evs = some (db', out) → Persists impLimits db' := by
  intro h
  obtain ⟨saved, db'', hw, hr, husers⟩ := h "0 users:\n".toList Db.empty _
    [.msg 4 (some (.op (.register "alice".toList)))] _ rfl (by decide) rfl
  have hlen := length_of_reload hw hr (by decide)
  rw [husers] at hlen
  exact absurd hlen (by decide)

end Ims

end ClassProjects
