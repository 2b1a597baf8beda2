import ClassProjects.Ims.Arrays

/-!
# Starting the server on a file

`serverStart` loads the database file and saves it again at once. What is on the disk may be what
a server saved at any moment, so its header counts the users that were loaded, and there may be
others behind them that were registered since.

A start keeps the users that the header counts (`Db.kept`). It succeeds exactly if none of them
has an entry for one that is dropped. Otherwise the entry is read as a NULL friend, or its name
does not fit, and the behaviour is undefined (`serverStart_served`, and over a whole run
`serverStart_of_run`).

`udbaseWrite` empties the file first, so a crash in it leaves a beginning of the new text. No
text is loaded as something else when its end is missing : a beginning of it is rejected, or
loaded as all of it (`udbaseRead_torn`).
-/

namespace ClassProjects

namespace Ims

open Lines KeyedList

variable {lim : ImpLimits} {db db' : Db} {u : DbUser} {e : DbFriend} {text saved : List Char}
  {file file' rest : List (List Char)} {n : ℕ} {ls : List CStr} {bs : List (CStr × List CStr)}

/-! ## The source -/

/-- What `serverStart` does with the database file : the database, and the file after it. -/
def serverStart (lim : ImpLimits) (text : List Char) : Except LoadError (Db × List Char) := do
  let db ← udbaseRead lim text
  match udbaseWrite db with
  | none => .error .undefined
  | some text => .ok (db, text)

/-! ## A file whose end is missing -/

/-- The lines of a text whose end is missing : the first lines of the whole, and perhaps a last
one without a newline. -/
inductive Torn : List (List Char) → List (List Char) → Prop
  | nil {file : List (List Char)} : Torn [] file
  | cut {l : List Char} {file : List (List Char)} (h : l.getLast? ≠ some '\n') : Torn [l] file
  | cons {l : List Char} {file file' : List (List Char)} (h : Torn file file') :
      Torn (l :: file) (l :: file')

theorem lines_torn {t : List Char} (h : t <+: text) : Torn (lines t) (lines text) := by
  induction t generalizing text with
  | nil => exact .nil
  | cons c t ih =>
    obtain ⟨rest, rfl⟩ := h
    have ih := ih (List.prefix_append t rest)
    rw [List.cons_append, lines, lines]
    by_cases hc : c = '\n'
    · rw [if_pos hc, if_pos hc]
      exact .cons ih
    · rw [if_neg hc, if_neg hc]
      cases ht : lines t with
      | nil => exact .cut (by simpa using hc)
      | cons l ls =>
        rw [ht] at ih
        cases hrest : lines (t ++ rest) with
        | nil =>
          rw [hrest] at ih
          cases ih with
          | cut h =>
            refine .cut ?_
            cases l with
            | nil => simpa using hc
            | cons d l => simpa using h
        | cons l' ls' =>
          rw [hrest] at ih
          cases ih with
          | cut h =>
            refine .cut ?_
            cases l with
            | nil => simpa using hc
            | cons d l => simpa using h
          | cons h => exact .cons h

/-- `getliner` does not take a line without a newline. -/
theorem getliner_cut {wantlen : ℕ} {l : List Char} (h : l.getLast? ≠ some '\n') :
    getliner wantlen l = none := by
  rw [getliner]
  split_ifs <;> rfl

theorem takeFriends_torn (ht : Torn file file') (h : takeFriends file = some (ls, rest)) :
    ∃ rest', takeFriends file' = some (ls, rest') ∧ Torn rest rest' := by
  induction ht generalizing ls with
  | nil => cases h
  | cut hl => simp [takeFriends, getliner_cut hl] at h
  | @cons l file file' ht ih =>
    unfold takeFriends at h ⊢
    cases hl : getliner 1 l with
    | none => simp [hl] at h
    | some line =>
      simp only [hl] at h ⊢
      by_cases hdot : line = ['.']
      · rw [if_pos hdot] at h ⊢
        obtain ⟨rfl, rfl⟩ := Prod.mk.inj (Option.some.inj h)
        exact ⟨file', rfl, ht⟩
      · rw [if_neg hdot] at h ⊢
        obtain ⟨⟨ls', rest₁⟩, htake, heq⟩ := Option.map_eq_some_iff.1 h
        obtain ⟨rfl, rfl⟩ := Prod.mk.inj heq
        obtain ⟨rest', htake', hrest⟩ := ih htake
        exact ⟨rest', by rw [htake', Option.map_some], hrest⟩

/-- Blocks that are complete are those of the whole file. -/
theorem blocks_torn (ht : Torn file file') (h : blocks n file = some bs) :
    blocks n file' = some bs := by
  induction n generalizing file file' bs with
  | zero =>
    obtain rfl := Option.some.inj h
    cases file' <;> rfl
  | succ n ih =>
    cases ht with
    | nil => cases h
    | cut hl => simp [blocks, getliner_cut hl] at h
    | @cons l file file' ht =>
      unfold blocks at h ⊢
      cases hl : getliner 1 l with
      | none => simp [hl] at h
      | some name =>
        cases htake : takeFriends file with
        | none => simp [hl, htake] at h
        | some r =>
          obtain ⟨ls, rest⟩ := r
          obtain ⟨rest', htake', hrest⟩ := takeFriends_torn ht htake
          simp only [hl, htake, htake'] at h ⊢
          obtain ⟨bs', hbs', rfl⟩ := Option.map_eq_some_iff.1 h
          rw [ih hrest hbs', Option.map_some]

/-- The loader does with a file what its header and its blocks make it do. -/
theorem udbaseRead_congr {l line : List Char} (hlines : lines text = l :: file)
    (hlines' : lines saved = l :: file') (hline : getliner 8 l = some line)
    (hscan : scanUnsigned line = some n) (hbs : blocks n file = some bs)
    (hbs' : blocks n file' = some bs) : udbaseRead lim text = udbaseRead lim saved := by
  rw [udbaseRead_eq lim hlines hline hscan hbs, udbaseRead_eq lim hlines' hline hscan hbs',
    readFlists_eq hbs, readFlists_eq hbs']

/-- A beginning of a text is rejected, or loaded as the whole text is. -/
theorem udbaseRead_torn (lim : ImpLimits) {t : List Char} (h : t <+: text) :
    udbaseRead lim t = .error .failed ∨ udbaseRead lim t = udbaseRead lim text := by
  have htorn := lines_torn h
  cases hlines : lines t with
  | nil => exact Or.inl (by rw [udbaseRead, hlines])
  | cons l file =>
    cases hline : getliner 8 l with
    | none => exact Or.inl (by simp only [udbaseRead, hlines, hline])
    | some line =>
      obtain ⟨file', hlines', htorn'⟩ : ∃ file', lines text = l :: file' ∧ Torn file file' := by
        rw [hlines] at htorn
        cases htext : lines text with
        | nil =>
          rw [htext] at htorn
          cases htorn with
          | cut hl => simp [getliner_cut hl] at hline
        | cons l' file' =>
          rw [htext] at htorn
          cases htorn with
          | cut hl => simp [getliner_cut hl] at hline
          | cons ht => exact ⟨file', rfl, ht⟩
      cases hscan : scanUnsigned line with
      | none => exact Or.inr (by simp only [udbaseRead, hlines, hlines', hline, hscan])
      | some n =>
        cases hbs : blocks n file with
        | none =>
          have husers := readUsers_eq n file
          rw [hbs] at husers
          exact Or.inl (by simp only [udbaseRead, hlines, hline, hscan, husers]; rfl)
        | some bs =>
          exact Or.inr (udbaseRead_congr hlines hlines' hline hscan hbs (blocks_torn htorn' hbs))

/-- The newline behind the last dot is missing. -/
theorem udbaseRead_torn_dot : udbaseRead impLimits "1 users:\nalice\n.".toList =
    .error .failed ∨ udbaseRead impLimits "1 users:\nalice\n.".toList =
      udbaseRead impLimits "1 users:\nalice\n.\n".toList :=
  @udbaseRead_torn "1 users:\nalice\n.\n".toList impLimits _ ⟨['\n'], rfl⟩

/-! ## What a start keeps -/

/-- What a server has in memory : the users it loaded, whose names fit the reader's array, and
behind them those registered since. -/
structure Served (lim : ImpLimits) (db : Db) : Prop where
  unum_le : db.unum ≤ db.users.length
  unum_lt : db.unum < 2 ^ 32
  names : ∀ name ∈ db.names, FileName name
  short : ∀ name ∈ db.names.take db.unum, name.length < lim.nameMaxlen
  resolves : db.Resolves

/-- The users that the header counts, none of them active. -/
def Db.kept (db : Db) : Db :=
  Db.restart ⟨db.users.take db.unum, db.unum⟩

theorem Db.names_restart : db.restart.names = db.names := by
  simp [Db.restart, Db.names, DbUser.rebind, Function.comp_def]

theorem Db.names_kept : db.kept.names = db.names.take db.unum := by
  rw [Db.kept, Db.names_restart, Db.names, Db.names, List.map_take]

/-- The users that are kept are related only to each other. -/
theorem Db.resolves_kept : db.kept.Resolves ↔ ∀ u ∈ db.users.take db.unum, ∀ e ∈ u.flist,
    ∃ name ∈ db.names.take db.unum, e.friend = some name := by
  rw [Db.Resolves, Db.names_kept, Db.kept, Db.restart, List.forall_mem_map]
  rfl

theorem Served.written (h : Served lim db) (hu : u ∈ db.users) (he : e ∈ u.flist) :
    ∃ name, e.friend = some name ∧ FileName name := by
  obtain ⟨name, hname, hfriend⟩ := h.resolves u hu e he
  exact ⟨name, hfriend, h.names name hname⟩

/-- What is kept can be saved and loaded, if it is closed. -/
theorem Served.savable_kept (h : Served lim db) (hres : db.kept.Resolves) :
    Savable lim db.kept := by
  have hnames : ∀ name ∈ db.kept.names, FileName name ∧ name.length < lim.nameMaxlen := by
    intro name hname
    rw [Db.names_kept] at hname
    exact ⟨h.names name (List.mem_of_mem_take hname), h.short name hname⟩
  refine ⟨?_, h.unum_lt, fun name hname => (hnames name hname).1, fun u hu e he => ?_⟩
  · simp [Db.kept, Db.restart, h.unum_le]
  · obtain ⟨name, hname, hfriend⟩ := hres u hu e he
    exact ⟨name, hname, hfriend, (hnames name hname).2⟩

theorem Db.restart_kept : db.kept.restart = db.kept := by
  simp [Db.kept, Db.restart, DbUser.rebind, Function.comp_def]

theorem Served.kept (h : Served lim db) (hres : db.kept.Resolves) : Served lim db.kept := by
  have hsave := h.savable_kept hres
  refine ⟨hsave.unum.le, h.unum_lt, hsave.names, fun name hname => ?_, hres⟩
  have hmem := List.mem_of_mem_take hname
  rw [Db.names_kept] at hmem
  exact h.short name hmem

/-- The text a served database is saved as : the header, and a block for each user. -/
theorem Served.lines_saved (h : Served lim db) (hw : udbaseWrite db = some text) :
    lines text = (headerLine db.unum ++ ['\n']) :: fileLines db.users ∧
      blocks db.unum (fileLines db.users) =
        some ((db.users.take db.unum).map fun u => (u.name, u.flist.map entryLine)) := by
  have hn : ∀ u ∈ db.users, FileName u.name := fun u hu => h.names _ (List.mem_map_of_mem hu)
  have hwritten : ∀ u ∈ db.users, ∀ e ∈ u.flist, ∃ name, e.friend = some name ∧ FileName name :=
    fun u hu e he => h.written hu he
  rw [udbaseWrite_eq fun u hu e he => (hwritten u hu e he).imp fun _ => And.left] at hw
  obtain rfl := Option.some.inj hw
  rw [lines_unlines (newline_notMem_lines hn hwritten), blocks_fileLines hn hwritten,
    if_pos h.unum_le]
  exact ⟨rfl, rfl⟩

/-- The blocks that are read are good exactly if what is kept is closed. -/
theorem Served.goodBlocks_iff (h : Served lim db) :
    goodBlocks lim ((db.users.take db.unum).map fun u => (u.name, u.flist.map entryLine)) = true ↔
      db.kept.Resolves := by
  have hnames : ((db.users.take db.unum).map fun u => (u.name, u.flist.map entryLine)).map
      Prod.fst = db.names.take db.unum := by
    rw [List.map_map, Db.names, List.map_take]
    rfl
  have hwords : ∀ u ∈ db.users.take db.unum, ∀ e ∈ u.flist, ∃ name status,
      e.friend = some name ∧ friendWords (entryLine e) = some (name, status) ∧
        status.length < 10 := by
    intro u hu e he
    obtain ⟨name, hfriend, hname⟩ := h.written (List.mem_of_mem_take hu) he
    obtain ⟨status, hwords, hlen⟩ := friendWords_entryLine hfriend hname
    exact ⟨name, status, hfriend, hwords, hlen⟩
  have hstart : ∀ u ∈ db.users.take db.unum, startsNamed (u.flist.map entryLine) = true := by
    intro u hu
    cases hl : u.flist with
    | nil => rfl
    | cons e l =>
      obtain ⟨name, status, -, hword, -⟩ := hwords u hu e (by simp [hl])
      simp [startsNamed, hword]
  rw [goodBlocks, List.all_eq_true, List.forall_mem_map, hnames, Db.resolves_kept]
  refine forall₂_congr fun u hu => ?_
  rw [Bool.and_eq_true, and_iff_right (hstart u hu), List.all_eq_true, List.forall_mem_map]
  refine forall₂_congr fun e he => ?_
  obtain ⟨name, status, hfriend, hword, hlen⟩ := hwords u hu e he
  rw [namesUser_iff hword]
  constructor
  · exact fun hgood => ⟨name, hgood.1, hfriend⟩
  · rintro ⟨name', hname', hfriend'⟩
    obtain rfl := Option.some.inj (hfriend.symm.trans hfriend')
    exact ⟨hname', h.short _ hname', hlen⟩

/-- Entries are linked to users, or to nothing. -/
theorem entries_linked {fname : Option CStr} {flist : List DbFriend}
    (h : entries lim db fname ls = .ok flist) (he : e ∈ flist) :
    e.friend = none ∨ ∃ name ∈ db.names, e.friend = some name := by
  have hone : ∀ {fname : Option CStr} {line f : CStr} {fcur : DbFriend},
      readFriend lim db fname line = .ok (f, fcur) →
        ∃ name st hst, fcur = db.dbFriendInit name st hst := by
    intro fname line f fcur hread
    cases hw : friendWords line with
    | none =>
      rw [readFriend_none hw] at hread
      cases fname with
      | none => cases hread
      | some g => exact ⟨g, .yes, yes_ne, (Prod.mk.inj (Except.ok.inj hread)).2.symm⟩
    | some words =>
      obtain ⟨name, status⟩ := words
      by_cases hfit : name.length < lim.nameMaxlen ∧ status.length < 10
      · obtain ⟨st, hst, hok⟩ : ∃ st hst, readFriend lim db fname line =
            .ok (name, db.dbFriendInit name st hst) := (readFriend_words hw).1 hfit
        rw [hok] at hread
        exact ⟨name, st, hst, (Prod.mk.inj (Except.ok.inj hread)).2.symm⟩
      · rw [(readFriend_words hw).2 hfit] at hread
        cases hread
  induction ls generalizing fname flist with
  | nil =>
    obtain rfl := Except.ok.inj h
    cases he
  | cons line ls ih =>
    obtain ⟨f, fcur, rest, hread, hrest, rfl⟩ := (entries_cons ..).1 h
    rcases List.mem_cons.1 he with rfl | he
    · obtain ⟨name, st, hst, rfl⟩ := hone hread
      rw [friend_dbFriendInit]
      split_ifs with hmem
      · exact Or.inr ⟨name, hmem, rfl⟩
      · exact Or.inl rfl
    · exact ih hrest he

/-- The users have the friend lists they are given. -/
theorem flist_withFlists {flists : List (List DbFriend)} (hlen : db.users.length = flists.length) :
    (db.withFlists flists).users.map DbUser.flist = flists := by
  calc (db.withFlists flists).users.map DbUser.flist
      = (db.users.zip flists).map Prod.snd := by
        rw [Db.withFlists, List.map_map]
        rfl
    _ = flists := List.map_snd_zip hlen.ge

/-- A database that was loaded and can be saved again has a user behind every entry. -/
theorem resolves_of_udbaseRead (h : udbaseRead lim text = .ok db)
    (hw : udbaseWrite db = some saved) : db.Resolves := by
  obtain ⟨⟨l, file, line, hlines, hline, hscan⟩, -⟩ := udbaseRead_ok h
  have husers := readUsers_eq db.unum file
  cases hbs : blocks db.unum file with
  | none =>
    rw [hbs] at husers
    simp only [udbaseRead, hlines, hline, hscan, husers] at h
    cases h
  | some bs =>
    rw [hbs] at husers
    have hread := udbaseRead_eq lim hlines hline hscan hbs
    cases hflists : readFlists lim (firstPass db.unum bs) db.unum file with
    | error er =>
      rw [h, hflists] at hread
      cases hread
    | ok flists =>
      rw [h, hflists] at hread
      have hdb : db = (firstPass db.unum bs).withFlists flists := Except.ok.inj hread
      have hlen : (firstPass db.unum bs).users.length = flists.length := by
        rw [readFlists_ok hflists, ← (readUsers_ok husers).1]
        simp [firstPass]
      rw [readFlists_eq hbs] at hflists
      obtain ⟨flists', hflists', hlinked⟩ : ∃ flists',
          (bs.mapM fun b => entries lim (firstPass db.unum bs) none b.2) = .ok flists' ∧
            ∀ flist ∈ flists', ∀ e ∈ flist,
              e.friend = none ∨ ∃ name ∈ (firstPass db.unum bs).names, e.friend = some name := by
        refine (exists_mapM_ok bs).2 fun b hb => ?_
        obtain ⟨flist, hentries, -⟩ :=
          (exists_mapM_ok bs).1 ⟨flists, hflists, fun _ _ => trivial⟩ b hb
        exact ⟨flist, hentries, fun e he => entries_linked hentries he⟩
      obtain rfl := Except.ok.inj (hflists.symm.trans hflists')
      have hres : ((firstPass db.unum bs).withFlists flists).Resolves := by
        refine (resolves_withFlists hlen).2 fun flist hflist e he => ?_
        rcases hlinked flist hflist e he with hnone | hsome
        · rw [hdb] at hw
          rw [← flist_withFlists hlen] at hflist
          obtain ⟨u, hu, rfl⟩ := List.mem_map.1 hflist
          obtain ⟨name, hname⟩ := friend_of_udbaseWrite hw u hu e he
          rw [hnone] at hname
          cases hname
        · exact hsome
      rwa [hdb]

/-- A start on the file of a served database keeps the users that the header counts, if they are
closed. It is undefined otherwise. -/
theorem serverStart_served (h : Served lim db) (hw : udbaseWrite db = some text) :
    (db.kept.Resolves → ∃ saved, udbaseWrite db.kept = some saved ∧
      serverStart lim text = .ok (db.kept, saved)) ∧
    (¬db.kept.Resolves → serverStart lim text = .error .undefined) := by
  obtain ⟨hlines, hbs⟩ := h.lines_saved hw
  have hline := getliner_headerLine db.unum
  have hscan := scanUnsigned_headerLine h.unum_lt
  constructor
  · intro hres
    obtain ⟨saved, hsaved, hread⟩ := udbaseRead_udbaseWrite (h.savable_kept hres)
    obtain ⟨hlines', hbs'⟩ := (h.kept hres).lines_saved hsaved
    have hsame : (db.kept.users.take db.kept.unum).map
        (fun u => (u.name, u.flist.map entryLine)) =
        (db.users.take db.unum).map fun u => (u.name, u.flist.map entryLine) := by
      rw [← (h.savable_kept hres).unum.symm, List.take_length, Db.kept, Db.restart, List.map_map]
      rfl
    rw [hsame] at hbs'
    have hload : udbaseRead lim text = .ok db.kept := by
      rw [udbaseRead_congr hlines hlines' hline hscan hbs hbs', hread, Db.restart_kept]
    refine ⟨saved, hsaved, ?_⟩
    simp only [serverStart, hload, bind, Except.bind, hsaved]
  · intro hres
    have hnot : ¬RejectsOrResolves lim text := by
      rw [rejectsOrResolves_blocks hlines hline hscan hbs, h.goodBlocks_iff]
      exact hres
    cases hread : udbaseRead lim text with
    | error er =>
      cases er with
      | failed => exact absurd (Or.inl hread) hnot
      | undefined => simp only [serverStart, hread, bind, Except.bind]
    | ok db₂ =>
      cases hwrite : udbaseWrite db₂ with
      | none => simp only [serverStart, hread, bind, Except.bind, hwrite]
      | some saved =>
        exact absurd ((rejectsOrResolves_of_ok hread).2 (resolves_of_udbaseRead hread hwrite)) hnot

/-! ## A start after a run -/

/-- A well-formed database that was loaded can be served. -/
theorem served_of_udbaseRead (h : udbaseRead lim text = .ok db) (hwf : WellFormed lim db) :
    Served lim db := by
  obtain ⟨-, hlen, hlt, hnul⟩ := udbaseRead_ok h
  exact ⟨hlen.ge, hlt, fun name hname => ⟨(hwf.names name hname).1, hnul name hname⟩,
    fun name hname => (hwf.names name (List.mem_of_mem_take hname)).2, hwf.resolves⟩

theorem served_step {ev : Event} {out : List Sent} (h : Served lim db)
    (hs : step lim db ev = some (db', out)) : Served lim db' := by
  obtain ⟨hunum, hres, new, hnames, hnew, -⟩ := users_of_step hs
  have hlen : db.unum ≤ db.names.length := by simpa [Db.names] using h.unum_le
  refine ⟨?_, hunum ▸ h.unum_lt, fun name hname => ?_, ?_, hres h.resolves⟩
  · have hlen' := congrArg List.length hnames
    rw [List.length_append] at hlen'
    have heq : db'.names.length = db'.users.length := by simp [Db.names]
    omega
  · rw [hnames] at hname
    rcases List.mem_append.1 hname with hname | hname
    · exact h.names name hname
    · obtain ⟨c, -, hv, -⟩ := hnew name hname
      exact (fileName_of_valid hv).1
  · rw [hunum, hnames, List.take_append_of_le_length hlen]
    exact h.short

/-- A run leaves the names that were loaded in front. -/
theorem names_of_run {evs : List Event} {out : List Sent} (hlen : db.users.length = db.unum)
    (hrun : Machine.run (step lim) db evs = some (db', out)) :
    db'.names.take db'.unum = db.names ∧ ∀ n ∈ db'.names.drop db'.unum, n ∉ db.names := by
  obtain ⟨hunum, -, new, hnames, hnew, -⟩ := users_of_run hrun
  have hl : db'.unum = db.names.length := by simp [Db.names, hlen, hunum]
  rw [hnames, hl, List.take_left, List.drop_left]
  exact ⟨rfl, fun n hn => (hnew n hn).choose_spec.2.2⟩

/-- So the users that were loaded are those with one of their names. -/
theorem mem_take_of_run {evs : List Event} {out : List Sent} (hlen : db.users.length = db.unum)
    (hrun : Machine.run (step lim) db evs = some (db', out)) :
    u ∈ db'.users.take db'.unum ↔ u ∈ db'.users ∧ u.name ∈ db.names := by
  obtain ⟨htake, hdrop⟩ := names_of_run hlen hrun
  constructor
  · intro hu
    refine ⟨List.mem_of_mem_take hu, ?_⟩
    rw [← htake, Db.names, ← List.map_take]
    exact List.mem_map_of_mem hu
  · rintro ⟨hu, hname⟩
    rw [← List.take_append_drop db'.unum db'.users] at hu
    refine (List.mem_append.1 hu).resolve_right fun hmem => hdrop u.name ?_ hname
    rw [Db.names, ← List.map_drop]
    exact List.mem_map_of_mem hmem

/-- After any run from a loaded database, the server can be started again on what it saves
exactly if no user that was loaded has an entry for one that was registered since. Then it has
the users that were loaded, with their entries, and nobody else. -/
theorem serverStart_of_run (hread : udbaseRead lim text = .ok db) (hwf : WellFormed lim db)
    {evs : List Event} {out : List Sent}
    (hrun : Machine.run (step lim) db evs = some (db', out)) :
    ∃ saved, udbaseWrite db' = some saved ∧
      ((∀ u ∈ db'.users, u.name ∈ db.names → ∀ e ∈ u.flist, ∃ n ∈ db.names, e.friend = some n) →
        ∃ text', serverStart lim saved = .ok (db'.kept, text') ∧ db'.kept.names = db.names) ∧
      (¬(∀ u ∈ db'.users, u.name ∈ db.names → ∀ e ∈ u.flist, ∃ n ∈ db.names,
          e.friend = some n) →
        serverStart lim saved = .error .undefined) := by
  have hserved : Served lim db' :=
    Machine.run_invariant (fun _ _ _ _ h hs => served_step h hs) (served_of_udbaseRead hread hwf)
      hrun
  obtain ⟨-, hlen, -, -⟩ := udbaseRead_ok hread
  have hnames := (names_of_run hlen hrun).1
  have hclosed : db'.kept.Resolves ↔ ∀ u ∈ db'.users, u.name ∈ db.names → ∀ e ∈ u.flist,
      ∃ n ∈ db.names, e.friend = some n := by
    rw [Db.resolves_kept, hnames]
    refine forall_congr' fun u => ?_
    rw [mem_take_of_run hlen hrun, and_imp]
  obtain ⟨saved, hw⟩ := udbaseWrite_of_resolves hserved.resolves
  obtain ⟨hok, hbad⟩ := serverStart_served hserved hw
  refine ⟨saved, hw, fun h => ?_, fun h => hbad (mt hclosed.1 h)⟩
  obtain ⟨text', -, hstart⟩ := hok (hclosed.2 h)
  exact ⟨text', hstart, Db.names_kept.trans hnames⟩

/-- Alice asks carol, who has just registered. -/
def askNewcomer : List Event :=
  [.msg 4 (some (.op (.login "alice".toList))), .msg 5 (some (.op (.register "carol".toList))),
    .msg 4 (some (.op (.friendRequest "carol".toList)))]

theorem serverStart_of_run_newcomer : ∃ db' out saved,
    Machine.run (step impLimits) ⟨[dbUserInit "alice".toList], 1⟩ askNewcomer = some (db', out) ∧
      udbaseWrite db' = some saved ∧ serverStart impLimits saved = .error .undefined := by
  obtain ⟨saved, hw, -, hbad⟩ := @serverStart_of_run impLimits ⟨[dbUserInit "alice".toList], 1⟩ _
    "1 users:\nalice\n.\n".toList rfl (by decide) askNewcomer _ rfl
  exact ⟨_, _, saved, rfl, hw, hbad (by decide)⟩

end Ims

end ClassProjects
