import ClassProjects.Ims.Loader

/-!
# The arrays of the loader

`udbaseRead` takes the two words of a friend line with `%s`, which does not look at the size of
the array it stores a word in. `udbaseStores` lists the words that are stored for a file. One
that does not fit is where `udbaseRead` is undefined (`udbaseRead_undefined`).

`validUserName` takes names of up to `IMP_NAME_MAXLEN` characters, and the array for a name has
as many bytes, so there is none for the NUL behind the longest. The words for a status fit. So
all words of a saved file fit exactly if no entry that is read back names a user whose name is
that long (`storesFit_iff`). The handlers keep the names accepted (`accepted_of_run`), so this is
about every state a run reaches.
-/

namespace ClassProjects

namespace Ims

open Lines

/-- A word that `sscanf` stores, and the size of the array. -/
structure Store where
  token : CStr
  size : ℕ

/-- The word fits with its NUL. -/
def Store.Fits (s : Store) : Prop :=
  s.token.length + 1 ≤ s.size

/-- `sscanf(line, "- %s %s", fname, fstatusstr)` : what is stored. -/
def lineStores (lim : ImpLimits) (line : CStr) : List Store :=
  match line with
  | '-' :: s =>
    let (name, s) := scanWord s
    let (statusstr, _) := scanWord s
    if name = [] then []
    else if statusstr = [] then [⟨name, lim.nameMaxlen⟩]
    else [⟨name, lim.nameMaxlen⟩, ⟨statusstr, 10⟩]
  | _ => []

/-- The loop over the friends of a user : what is stored, and what is behind them. At a line that
`getliner` does not take the loader returns 1. -/
def friendStores (lim : ImpLimits) :
    List (List Char) → List Store × Option (List (List Char))
  | [] => ([], none)
  | l :: file =>
    match getliner 1 l with
    | none => ([], none)
    | some line =>
      if line = ['.'] then ([], some file)
      else
        let (stores, file) := friendStores lim file
        (lineStores lim line ++ stores, file)

/-- The second pass, over the friend lists of `n` users. -/
def flistStores (lim : ImpLimits) : ℕ → List (List Char) → List Store
  | 0, _ => []
  | _ + 1, [] => []
  | n + 1, l :: file =>
    match getliner 1 l with
    | none => []
    | some _ =>
      match friendStores lim file with
      | (stores, none) => stores
      | (stores, some file) => stores ++ flistStores lim n file

/-- What `udbaseRead` stores of a file with the given text. `none` is a header without a number,
behind which everything is undefined. -/
def udbaseStores (lim : ImpLimits) (text : List Char) : Option (List Store) :=
  match lines text with
  | [] => some []
  | l :: file =>
    match getliner 8 l with
    | none => some []
    | some line =>
      match scanUnsigned line with
      | none => none
      | some nuser =>
        match readUsers nuser file with
        | .error _ => some []
        | .ok _ => some (flistStores lim nuser file)

/-- All words that are stored of a file fit. -/
def StoresFit (lim : ImpLimits) (text : List Char) : Prop :=
  ∃ stores, udbaseStores lim text = some stores ∧ ∀ s ∈ stores, s.Fits

/-- The server accepts all names in the database, those that its entries point to included. -/
def Db.Accepted (lim : ImpLimits) (db : Db) : Prop :=
  ∀ u ∈ db.users, validUserName lim u.name = true ∧
    ∀ e ∈ u.flist, ∀ name, e.friend = some name → validUserName lim name = true

instance (lim : ImpLimits) (db : Db) : Decidable (db.Accepted lim) :=
  decidable_of_iff ((db.users.all fun u => validUserName lim u.name &&
      u.flist.all fun e => e.friend.all (validUserName lim)) = true)
    (by simp [Db.Accepted, Option.all_eq_true])

variable {lim : ImpLimits} {db : Db} {text : List Char} {file rest : List (List Char)} {n : ℕ}
  {fname : Option CStr} {line name status : CStr} {ls : List CStr} {bs : List (CStr × List CStr)}
  {fcur : DbFriend} {us : List DbUser}

/-- A run registers accepted names only, so the names stay accepted. -/
theorem accepted_of_run {db' : Db} {evs : List Event} {out : List Sent} (h : db.Accepted lim)
    (hres : db.Resolves) (hrun : Machine.run (step lim) db evs = some (db', out)) :
    db'.Accepted lim := by
  obtain ⟨-, hres', new, hnames, hnew, -⟩ := users_of_run hrun
  have hvalid : ∀ name ∈ db'.names, validUserName lim name = true := by
    intro name hname
    rw [hnames] at hname
    rcases List.mem_append.1 hname with hname | hname
    · obtain ⟨u, hu, rfl⟩ := List.mem_map.1 hname
      exact (h u hu).1
    · obtain ⟨-, -, hv, -⟩ := hnew name hname
      exact hv
  intro u hu
  refine ⟨hvalid _ (List.mem_map_of_mem hu), fun e he name hname => ?_⟩
  obtain ⟨name', hname', hfriend⟩ := hres' hres u hu e he
  obtain rfl := Option.some.inj (hname.symm.trans hfriend)
  exact hvalid name hname'

/-! ## A friend line -/

theorem lineStores_none (h : friendWords line = none) : lineStores lim line = [] := by
  cases line with
  | nil => rfl
  | cons c s =>
    by_cases hc : c = '-'
    · subst hc
      have hne := scanWord_of_friendWords h
      simp only [lineStores, if_pos hne]
    · simp [lineStores, hc]

/-- Both words of a line are stored, the second if there is one. -/
theorem fits_lineStores (h : friendWords line = some (name, status)) :
    (∀ s ∈ lineStores lim line, s.Fits) ↔ name.length < lim.nameMaxlen ∧ status.length < 10 := by
  unfold friendWords at h
  split at h
  · dsimp only at h
    split_ifs at h with hname
    obtain ⟨rfl, rfl⟩ := Prod.mk.inj (Option.some.inj h)
    simp only [lineStores, if_neg hname]
    split_ifs with hstatus
    · rw [List.forall_mem_singleton, Store.Fits, hstatus]
      exact ⟨fun h => ⟨h, by decide⟩, And.left⟩
    · rw [List.forall_mem_cons, List.forall_mem_singleton, Store.Fits, Store.Fits]
      exact Iff.rfl
  · cases h

/-- A line that the loader reads has words that fit. -/
theorem fits_of_readFriend {r : CStr × DbFriend} (h : readFriend lim db fname line = .ok r) :
    ∀ s ∈ lineStores lim line, s.Fits := by
  cases hw : friendWords line with
  | none => simp [lineStores_none hw]
  | some words =>
    obtain ⟨name, status⟩ := words
    rw [fits_lineStores hw]
    by_contra hfit
    rw [(readFriend_words hw).2 hfit] at h
    cases h

theorem fits_of_entries {flist : List DbFriend} (h : entries lim db fname ls = .ok flist) :
    ∀ s ∈ ls.flatMap (lineStores lim), s.Fits := by
  induction ls generalizing fname flist with
  | nil => simp
  | cons line ls ih =>
    obtain ⟨f, fcur, rest, hread, hrest, -⟩ := (entries_cons ..).1 h
    rw [List.flatMap_cons, List.forall_mem_append]
    exact ⟨fits_of_readFriend hread, ih hrest⟩

/-! ## A file of blocks -/

theorem friendStores_eq (h : takeFriends file = some (ls, rest)) :
    friendStores lim file = (ls.flatMap (lineStores lim), some rest) := by
  induction file generalizing ls with
  | nil => cases h
  | cons l file ih =>
    unfold takeFriends at h
    unfold friendStores
    cases hl : getliner 1 l with
    | none => simp [hl] at h
    | some line =>
      simp only [hl] at h ⊢
      split_ifs at h ⊢ with hdot
      · obtain ⟨rfl, rfl⟩ := Prod.mk.inj (Option.some.inj h)
        rfl
      · obtain ⟨⟨ls', rest'⟩, hr, heq⟩ := Option.map_eq_some_iff.1 h
        obtain ⟨rfl, rfl⟩ := Prod.mk.inj heq
        simp only [ih hr, List.flatMap_cons]

theorem flistStores_eq (h : blocks n file = some bs) :
    flistStores lim n file = bs.flatMap fun b => b.2.flatMap (lineStores lim) := by
  induction n generalizing file bs with
  | zero =>
    obtain rfl := Option.some.inj h
    rfl
  | succ n ih =>
    cases file with
    | nil => cases h
    | cons l file =>
      unfold blocks at h
      unfold flistStores
      cases hl : getliner 1 l with
      | none => simp [hl] at h
      | some name =>
        simp only [hl] at h ⊢
        cases ht : takeFriends file with
        | none => simp [ht] at h
        | some r =>
          obtain ⟨ls, rest⟩ := r
          simp only [ht] at h
          obtain ⟨bs', hbs, rfl⟩ := Option.map_eq_some_iff.1 h
          simp only [friendStores_eq ht, ih hbs, List.flatMap_cons]

theorem udbaseStores_eq (lim : ImpLimits) {l : List Char} (hlines : lines text = l :: file)
    (hline : getliner 8 l = some line) (hscan : scanUnsigned line = some n) :
    udbaseStores lim text =
      match blocks n file with
      | none => some []
      | some bs => some (bs.flatMap fun b => b.2.flatMap (lineStores lim)) := by
  have husers := readUsers_eq n file
  cases hbs : blocks n file with
  | none =>
    simp only [hbs] at husers
    simp only [udbaseStores, hlines, hline, hscan, husers]
  | some bs =>
    simp only [hbs] at husers
    simp only [udbaseStores, hlines, hline, hscan, husers, flistStores_eq hbs]

/-- Where a word does not fit, the loader is undefined. -/
theorem udbaseRead_undefined (h : ¬StoresFit lim text) :
    udbaseRead lim text = .error .undefined := by
  cases hlines : lines text with
  | nil => exact absurd ⟨[], by simp only [udbaseStores, hlines], by simp⟩ h
  | cons l file =>
    cases hline : getliner 8 l with
    | none => exact absurd ⟨[], by simp only [udbaseStores, hlines, hline], by simp⟩ h
    | some line =>
      cases hscan : scanUnsigned line with
      | none => simp only [udbaseRead, hlines, hline, hscan]
      | some n =>
        have hstores := udbaseStores_eq lim hlines hline hscan
        cases hbs : blocks n file with
        | none =>
          rw [hbs] at hstores
          exact absurd ⟨[], hstores, by simp⟩ h
        | some bs =>
          rw [hbs] at hstores
          rw [udbaseRead_eq lim hlines hline hscan hbs]
          cases hflists : readFlists lim (firstPass n bs) n file with
          | error e =>
            obtain rfl := readFlists_error hbs hflists
            rfl
          | ok flists =>
            refine absurd ⟨_, hstores, fun s hs => ?_⟩ h
            rw [readFlists_eq hbs] at hflists
            obtain ⟨b, hb, hs⟩ := List.mem_flatMap.1 hs
            obtain ⟨flist, hentries, -⟩ :=
              (exists_mapM_ok bs).1 ⟨flists, hflists, fun _ _ => trivial⟩ b hb
            exact fits_of_entries hentries s hs

/-! ## A saved file -/

theorem fileName_of_valid (h : validUserName lim name = true) :
    FileName name ∧ name.length ≤ lim.nameMaxlen := by
  unfold validUserName at h
  split_ifs at h with hlen
  have hlen' : 1 ≤ name.length ∧ name.length ≤ lim.nameMaxlen := by
    simpa only [Bool.not_eq_true', decide_eq_false_iff_not, not_not] using hlen
  have hchar : ∀ c ∈ name, isspace c = false ∧ isprint c = true := by simpa using h
  refine ⟨⟨⟨List.ne_nil_of_length_pos hlen'.1, fun c hc => (hchar c hc).1⟩, fun hnul => ?_⟩,
    hlen'.2⟩
  exact absurd (hchar _ hnul).2 (by decide)

/-- The words of an entry's line. -/
theorem friendWords_entryLine (hfriend : fcur.friend = some name) (hname : FileName name) :
    ∃ status, friendWords (entryLine fcur) = some (name, status) ∧ status.length < 10 := by
  refine ⟨(scanWord (statusWord fcur.status)).1, ?_, ?_⟩
  · simp only [entryLine_eq hfriend, friendWords, scanWord_entry hname.toWord, if_neg hname.ne_nil]
  · cases fcur.status <;> decide

theorem takeFriends_entries {es : List DbFriend}
    (h : ∀ e ∈ es, ∃ name, e.friend = some name ∧ FileName name) (file : List (List Char)) :
    takeFriends ((es.map fun e => entryLine e ++ ['\n']) ++ ['.', '\n'] :: file) =
      some (es.map entryLine, file) := by
  induction es with
  | nil => rfl
  | cons e es ih =>
    obtain ⟨name, hfriend, hname⟩ := h e List.mem_cons_self
    obtain ⟨hget, hne⟩ := getliner_entryLine hfriend hname
    rw [List.map_cons, List.cons_append, takeFriends, hget]
    simp only [if_neg hne, ih fun e' he' => h e' (List.mem_cons_of_mem _ he')]
    rfl

/-- A saved file has a block for each user. -/
theorem blocks_fileLines (hn : ∀ u ∈ us, FileName u.name)
    (he : ∀ u ∈ us, ∀ e ∈ u.flist, ∃ name, e.friend = some name ∧ FileName name) (n : ℕ) :
    blocks n (fileLines us) = if n ≤ us.length then
      some ((us.take n).map fun u => (u.name, u.flist.map entryLine)) else none := by
  induction us generalizing n with
  | nil => cases n <;> rfl
  | cons u us ih =>
    cases n with
    | zero => rfl
    | succ n =>
      have hname := hn u List.mem_cons_self
      have hget := getliner_newline hname.ne_nil hname.nul (List.length_pos_of_ne_nil hname.ne_nil)
      rw [fileLines_cons, blocks, hget]
      simp only [takeFriends_entries (he u List.mem_cons_self),
        ih (fun v hv => hn v (List.mem_cons_of_mem _ hv))
          (fun v hv => he v (List.mem_cons_of_mem _ hv)) n, List.length_cons,
        Nat.add_le_add_iff_right, List.take_succ_cons, List.map_cons]
      split_ifs <;> rfl

theorem exists_of_mapM {α β : Type} {f : α → Option β} {l : List α} {ys : List β}
    (h : l.mapM f = some ys) : ∀ x ∈ l, ∃ y, f x = some y := by
  induction l generalizing ys with
  | nil => simp
  | cons x l ih =>
    rw [List.mapM_cons] at h
    obtain ⟨y, hy, h⟩ := Option.bind_eq_some_iff.1 h
    obtain ⟨ys', hys, -⟩ := Option.bind_eq_some_iff.1 h
    exact List.forall_mem_cons.2 ⟨⟨y, hy⟩, ih hys⟩

/-- There is no NULL friend in a database that was saved. -/
theorem friend_of_udbaseWrite (h : udbaseWrite db = some text) :
    ∀ u ∈ db.users, ∀ e ∈ u.flist, ∃ name, e.friend = some name := by
  intro u hu e he
  obtain ⟨blocks, hblocks, -⟩ := Option.map_eq_some_iff.1 h
  obtain ⟨ls, hls⟩ := exists_of_mapM hblocks u hu
  obtain ⟨flines, hflines, -⟩ := Option.map_eq_some_iff.1 hls
  obtain ⟨l, hl⟩ := exists_of_mapM hflines e he
  obtain ⟨name, hname, -⟩ := Option.map_eq_some_iff.1 hl
  exact ⟨name, hname⟩

/-- The loader goes over as many users as the header counts, if there are that many. -/
theorem udbaseStores_saved (h : db.Accepted lim) (hunum : db.unum < 2 ^ 32)
    (hw : udbaseWrite db = some text) : udbaseStores lim text =
      some (if db.unum ≤ db.users.length then
        (db.users.take db.unum).flatMap fun u =>
          u.flist.flatMap fun e => lineStores lim (entryLine e)
      else []) := by
  have hfriend := friend_of_udbaseWrite hw
  have hnames : ∀ u ∈ db.users, FileName u.name := fun u hu => (fileName_of_valid (h u hu).1).1
  have hwritten : ∀ u ∈ db.users, ∀ e ∈ u.flist, ∃ name, e.friend = some name ∧ FileName name := by
    intro u hu e he
    obtain ⟨name, hname⟩ := hfriend u hu e he
    exact ⟨name, hname, (fileName_of_valid ((h u hu).2 e he name hname)).1⟩
  have hlines : lines text = (headerLine db.unum ++ ['\n']) :: fileLines db.users := by
    rw [udbaseWrite_eq hfriend] at hw
    rw [← Option.some.inj hw, lines_unlines (newline_notMem_lines hnames hwritten), List.map_cons,
      fileLines]
  rw [udbaseStores_eq lim hlines (getliner_headerLine _) (scanUnsigned_headerLine hunum),
    blocks_fileLines hnames hwritten]
  split_ifs
  · simp only [List.flatMap_map]
  · rfl

/-- The line of an accepted entry fits unless the name is the longest possible. -/
theorem fits_entryLine (hname : validUserName lim name = true) (hfriend : fcur.friend = some name) :
    (∀ s ∈ lineStores lim (entryLine fcur), s.Fits) ↔ name.length ≠ lim.nameMaxlen := by
  obtain ⟨hfile, hle⟩ := fileName_of_valid hname
  obtain ⟨status, hwords, hstatus⟩ := friendWords_entryLine hfriend hfile
  rw [fits_lineStores hwords, and_iff_left hstatus]
  omega

/-- All words of a saved file fit exactly if no entry of a user that is loaded again points to a
user with the longest name that the server accepts. -/
theorem storesFit_iff (lim : ImpLimits) (db : Db) (saved : List Char) (h : db.Accepted lim)
    (hunum : db.unum < 2 ^ 32) (hw : udbaseWrite db = some saved) :
    StoresFit lim saved ↔ (db.unum ≤ db.users.length →
      ∀ u ∈ db.users.take db.unum, ∀ e ∈ u.flist, ∀ name, e.friend = some name →
        name.length ≠ lim.nameMaxlen) := by
  have hfriend := friend_of_udbaseWrite hw
  have hentry : ∀ u ∈ db.users, ∀ e ∈ u.flist,
      (∀ s ∈ lineStores lim (entryLine e), s.Fits) ↔
        ∀ name, e.friend = some name → name.length ≠ lim.nameMaxlen := by
    intro u hu e he
    obtain ⟨name, hname⟩ := hfriend u hu e he
    rw [fits_entryLine ((h u hu).2 e he name hname) hname, hname]
    simp
  rw [StoresFit, udbaseStores_saved h hunum hw]
  simp only [Option.some.injEq, exists_eq_left']
  split_ifs with hle
  · rw [forall_prop_of_true hle]
    simp only [List.forall_mem_flatMap]
    exact forall₂_congr fun u hu => forall₂_congr fun e he =>
      hentry u (List.mem_of_mem_take hu) e he
  · exact iff_of_true (by simp) fun h => absurd h hle

/-- Two users one of whom asked the other, and one with the longest name, who has no friends. -/
def askedTrio : Db :=
  ⟨[{ dbUserInit "alice".toList with flist := [⟨some "bob".toList, .requested, requested_ne⟩] },
    { dbUserInit "bob".toList with flist := [⟨some "alice".toList, .toanswer, toanswer_ne⟩] },
    dbUserInit "JUSTALLOOWEDUSERNAME".toList], 3⟩

theorem storesFit_iff_trio : askedTrio.Accepted impLimits ∧
    ∃ saved, udbaseWrite askedTrio = some saved ∧ StoresFit impLimits saved := by
  have h : askedTrio.Accepted impLimits := by decide
  refine ⟨h, _, rfl, (storesFit_iff impLimits askedTrio _ h (by decide) rfl).2 ?_⟩
  intro _ u hu e he name hname
  have hshort : (askedTrio.users.all fun u => u.flist.all fun e => e.friend.all fun name =>
      name.length != 20) = true := by decide
  have hmem := List.all_eq_true.1 hshort u (List.mem_of_mem_take hu)
  have hlen := List.all_eq_true.1 hmem e he
  rw [hname, Option.all_some, bne_iff_ne] at hlen
  exact hlen

/-- A user asks one who registered with the longest name. -/
theorem not_storesFit : ∃ db out saved, Machine.run (step impLimits)
    ⟨[dbUserInit "alice".toList], 1⟩
    [.msg 4 (some (.op (.login "alice".toList))),
      .msg 5 (some (.op (.register "JUSTALLOOWEDUSERNAME".toList))),
      .msg 4 (some (.op (.friendRequest "JUSTALLOOWEDUSERNAME".toList)))] = some (db, out) ∧
    db.Accepted impLimits ∧ udbaseWrite db = some saved ∧ ¬StoresFit impLimits saved := by
  refine ⟨_, _, _, rfl, by decide, rfl, ?_⟩
  rintro ⟨stores, hstores, hfit⟩
  have hstored : some [⟨"JUSTALLOOWEDUSERNAME".toList, 20⟩, ⟨"requested".toList, 10⟩] =
      some stores := hstores
  obtain rfl := Option.some.inj hstored
  have hlen : 20 + 1 ≤ 20 := hfit _ List.mem_cons_self
  exact absurd hlen (by decide)

end Ims

end ClassProjects
