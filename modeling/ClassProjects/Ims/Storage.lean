import ClassProjects.Ims.Rep
import ClassProjects.Lib.Lines
import Mathlib.Algebra.Group.Nat.Defs

/-!
# The database file

`udbaseRead` and `udbaseWrite` of `udbase.c` on the text of the file. The reader goes over
the lines twice : `readUsers` makes the users and skips their friends, `readFlists` makes
the friend lists, when every user an entry may point to is there. Both stop after as many
users as the header counts.

A conversion of `sscanf` that does not take place leaves its variable as it was, and one
that does not fit its array writes behind it. Using a variable that was never stored and
writing behind an array are undefined.

What `udbaseWrite` saves of a database whose header count is right and whose names fit is
read back as it was, with nobody active (`udbaseRead_udbaseWrite`).
-/

namespace ClassProjects

namespace Ims

open Lines

/-! ## Reading -/

/-- Why there is no database : the loader returned 1, or its behaviour is undefined. -/
inductive LoadError
  | failed | undefined
deriving DecidableEq

/-- `getliner` on the line that `getline` read. -/
def getliner (wantlen : ℕ) (line : List Char) : Option CStr :=
  if line.length ≤ 1 then none
  else if line.getLast? ≠ some '\n' then none
  else if !(line.length - 1 ≥ wantlen) then none
  else some (cstr line.dropLast)

/-- The sign in front of a number : whether it is a minus, and what is behind it. -/
def scanSign : CStr → Bool × CStr
  | '-' :: s => (true, s)
  | '+' :: s => (false, s)
  | s => (false, s)

/-- The value of a `%u` conversion : the digits after blanks and a sign, converted as
`strtoul` does on 64 bits and stored in 32. `none` if there is no digit. -/
def scanUnsigned (line : CStr) : Option ℕ :=
  let (negative, s) := scanSign (line.dropWhile isspace)
  let digits := s.takeWhile Char.isDigit
  if digits = [] then none
  else
    let d := Nat.ofDigitChars 10 digits 0
    let ul := if 2 ^ 64 ≤ d then 2 ^ 64 - 1 else if negative then (2 ^ 64 - d) % 2 ^ 64 else d
    some (ul % 2 ^ 32)

/-- A `%s` conversion : the word after blanks, and what is behind it. -/
def scanWord (s : CStr) : CStr × CStr :=
  let s := s.dropWhile isspace
  (s.takeWhile fun c => !isspace c, s.dropWhile fun c => !isspace c)

/-- The loop that skips the friends of a user, up to the line with a dot. -/
def skipFriends : List (List Char) → Except LoadError (List (List Char))
  | [] => .error .failed
  | l :: file =>
    match getliner 1 l with
    | none => .error .failed
    | some line => if line = ['.'] then .ok file else skipFriends file

/-- The first pass : the names of `n` users. -/
def readUsers : ℕ → List (List Char) → Except LoadError (List CStr)
  | 0, _ => .ok []
  | _ + 1, [] => .error .failed
  | n + 1, l :: file =>
    match getliner 1 l with
    | none => .error .failed
    | some name => do
      let file ← skipFriends file
      let names ← readUsers n file
      .ok (name :: names)

/-- One line of a friend list : `fname` after it, and the entry it makes. -/
def readFriend (lim : ImpLimits) (db : Db) (fname : Option CStr) (line : CStr) :
    Except LoadError (CStr × DbFriend) :=
  let unmatched :=
    match fname with
    | none => .error .undefined
    | some fname => .ok (fname, db.dbFriendInit fname .yes yes_ne)
  match line with
  | '-' :: s =>
    let (name, s) := scanWord s
    let (statusstr, _) := scanWord s
    if name = [] then unmatched
    else if name.length + 1 > lim.nameMaxlen then .error .undefined
    else if statusstr = [] then .ok (name, db.dbFriendInit name .yes yes_ne)
    else if statusstr.length + 1 > 10 then .error .undefined
    else if statusstr = "requested".toList then
      .ok (name, db.dbFriendInit name .requested requested_ne)
    else .ok (name, db.dbFriendInit name .toanswer toanswer_ne)
  | _ => unmatched

/-- The loop over the friends of a user. Reporting a failure reads the name of the next
user, which the last one does not have. -/
def readFriends (lim : ImpLimits) (db : Db) (last : Bool) :
    Option CStr → List (List Char) → Except LoadError (List DbFriend × List (List Char))
  | _, [] => .error (if last then .undefined else .failed)
  | fname, l :: file =>
    match getliner 1 l with
    | none => .error (if last then .undefined else .failed)
    | some line =>
      if line = ['.'] then .ok ([], file)
      else do
        let (fname, fcur) ← readFriend lim db fname line
        let (rest, file) ← readFriends lim db last (some fname) file
        .ok (fcur :: rest, file)

/-- The second pass : the friend lists of `n` users. -/
def readFlists (lim : ImpLimits) (db : Db) :
    ℕ → List (List Char) → Except LoadError (List (List DbFriend))
  | 0, _ => .ok []
  | _ + 1, [] => .error .failed
  | n + 1, l :: file =>
    match getliner 1 l with
    | none => .error .failed
    | some _ => do
      let (flist, file) ← readFriends lim db (n = 0) none file
      let rest ← readFlists lim db n file
      .ok (flist :: rest)

/-- `udbaseRead` of a file with the given text. -/
def udbaseRead (lim : ImpLimits) (text : List Char) : Except LoadError Db :=
  match lines text with
  | [] => .error .failed
  | l :: file =>
    match getliner 8 l with
    | none => .error .failed
    | some line =>
      match scanUnsigned line with
      | none => .error .undefined
      | some nuser => do
        let names ← readUsers nuser file
        let db : Db := ⟨names.map dbUserInit, nuser⟩
        let flists ← readFlists lim db nuser file
        .ok { db with
          users := (db.users.zip flists).map fun (ucur, flist) => { ucur with flist := flist } }

/-! ## Writing -/

/-- What `udbaseWrite` puts behind the name of a friend. -/
def statusWord : ImpFriend → CStr
  | .requested => " requested".toList
  | .toanswer => " toanswer".toList
  | _ => []

/-- The line of an entry, `none` for a NULL friend. -/
def friendLine (fcur : DbFriend) : Option CStr :=
  fcur.friend.map fun name => "- ".toList ++ name ++ statusWord fcur.status

/-- The lines of a user. -/
def userLines (ucur : DbUser) : Option (List CStr) :=
  (ucur.flist.mapM friendLine).map fun flines => ucur.name :: flines ++ [['.']]

/-- `udbaseWrite` : the text of the file, `none` if it reads a name through a NULL friend. -/
def udbaseWrite (db : Db) : Option (List Char) :=
  (db.users.mapM userLines).map fun blocks =>
    unlines ((Nat.toDigits 10 db.unum ++ " users:".toList) :: blocks.flatten)

variable {lim : ImpLimits} {db : Db} {n : ℕ} {name line : CStr} {fcur : DbFriend}

/-! ## A saved line is read back -/

theorem nul_notMem_cstr (buf : List Char) : '\x00' ∉ cstr buf := by
  intro h
  simpa using List.mem_takeWhile_imp h

/-- A word : not empty, and free of white space. -/
structure Word (w : CStr) : Prop where
  ne_nil : w ≠ []
  isspace : ∀ c ∈ w, isspace c = false

instance (w : CStr) : Decidable (Word w) :=
  decidable_of_iff (w ≠ [] ∧ w.all (fun c => !ClassProjects.isspace c) = true)
    ⟨fun h => ⟨h.1, by simpa using h.2⟩, fun h => ⟨h.ne_nil, by simpa using h.isspace⟩⟩

theorem getliner_newline {wantlen : ℕ} (hne : line ≠ []) (hnul : '\x00' ∉ line)
    (hlen : wantlen ≤ line.length) : getliner wantlen (line ++ ['\n']) = some line := by
  have hpos := List.length_pos_of_ne_nil hne
  rw [getliner, if_neg (by simp; omega), if_neg (by simp), if_neg (by simpa using hlen),
    List.dropLast_concat, cstr_eq_self hnul]

theorem scanWord_append {w s : CStr} (h : Word w) (hs : s = [] ∨ ∃ t, s = ' ' :: t) :
    scanWord (w ++ s) = (w, s) := by
  have hdrop : (w ++ s).dropWhile ClassProjects.isspace = w ++ s := by
    obtain ⟨c, w, rfl⟩ := List.exists_cons_of_ne_nil h.ne_nil
    rw [List.cons_append, List.dropWhile_cons_of_neg (by simp [h.isspace c])]
  have hw : ∀ c ∈ w, (!ClassProjects.isspace c) = true := fun c hc => by simp [h.isspace c hc]
  rw [scanWord, hdrop, List.takeWhile_append_of_pos hw, List.dropWhile_append_of_pos hw]
  rcases hs with rfl | ⟨t, rfl⟩ <;> simp [ClassProjects.isspace]

theorem scanWord_blank {s : CStr} : scanWord (' ' :: s) = scanWord s := by
  rw [scanWord, scanWord, List.dropWhile_cons_of_pos (by decide)]

theorem isspace_of_isDigit {c : Char} (h : c.isDigit = true) : isspace c = false := by
  have hrange : 48 ≤ c.toNat ∧ c.toNat ≤ 57 := Char.isDigit_iff_toNat.1 h
  simp only [isspace, decide_eq_false_iff_not]
  rintro (rfl | hc)
  · exact absurd hrange (by decide)
  · omega

theorem scanSign_of_isDigit {c : Char} {s : CStr} (h : c.isDigit = true) :
    scanSign (c :: s) = (false, c :: s) := by
  unfold scanSign
  split
  · rename_i heq
    obtain ⟨rfl, -⟩ := List.cons.inj heq
    exact absurd h (by decide)
  · rename_i heq
    obtain ⟨rfl, -⟩ := List.cons.inj heq
    exact absurd h (by decide)
  · rfl

/-- The count in the header is the number that was written. -/
theorem scanUnsigned_digits (hn : n < 2 ^ 32) (t : CStr) :
    scanUnsigned (Nat.toDigits 10 n ++ ' ' :: t) = some n := by
  have hdigit : ∀ c ∈ Nat.toDigits 10 n, c.isDigit = true := fun c hc =>
    Nat.isDigit_of_mem_toDigits (by decide) (by decide) hc
  have htake : (Nat.toDigits 10 n ++ ' ' :: t).takeWhile Char.isDigit = Nat.toDigits 10 n := by
    rw [List.takeWhile_append_of_pos hdigit, List.takeWhile_cons_of_neg (by decide),
      List.append_nil]
  have hval : Nat.ofDigitChars 10 (Nat.toDigits 10 n) 0 = n :=
    Nat.ofDigitChars_toDigits (by decide) (by decide)
  have hne : Nat.toDigits 10 n ≠ [] := Nat.toDigits_ne_nil
  have hsign : scanSign ((Nat.toDigits 10 n ++ ' ' :: t).dropWhile isspace) =
      (false, Nat.toDigits 10 n ++ ' ' :: t) := by
    obtain ⟨c, ds, hds⟩ := List.exists_cons_of_ne_nil hne
    have hc := hdigit c (by simp [hds])
    rw [hds, List.cons_append, List.dropWhile_cons_of_neg (by simp [isspace_of_isDigit hc]),
      scanSign_of_isDigit hc]
  rw [scanUnsigned, hsign]
  simp only [htake, hval, if_neg hne]
  rw [if_neg (by omega), if_neg (by simp), Nat.mod_eq_of_lt hn]

/-! ## A saved database is read back -/

/-- A name the file can hold. -/
structure FileName (name : CStr) : Prop extends Word name where
  nul : '\x00' ∉ name

theorem FileName.newline (h : FileName name) : '\n' ∉ name :=
  fun hn => by simpa using h.isspace _ hn

/-- What a database must satisfy to be read back : a header that counts its users, names
the file can hold, and entries that point to users with names that fit the reader's array. -/
structure Savable (lim : ImpLimits) (db : Db) : Prop where
  unum : db.unum = db.users.length
  unum_lt : db.unum < 2 ^ 32
  names : ∀ name ∈ db.names, FileName name
  entries : ∀ u ∈ db.users, ∀ e ∈ u.flist, ∃ name ∈ db.names, e.friend = some name ∧
    name.length < lim.nameMaxlen

/-- The database with nobody active, as a server that is started again has it. -/
def Db.restart (db : Db) : Db :=
  { db with users := db.users.map fun u => u.rebind .not (-1) }

/-- The line of an entry that points to a user. -/
def entryLine (fcur : DbFriend) : CStr :=
  "- ".toList ++ fcur.friend.getD [] ++ statusWord fcur.status

/-- The lines of a user whose entries point to users. -/
def blockLines (ucur : DbUser) : List CStr :=
  ucur.name :: ucur.flist.map entryLine ++ [['.']]

/-- An entry that points to a user whose name the file and the reader's array can hold. -/
def Readable (lim : ImpLimits) (db : Db) (fcur : DbFriend) : Prop :=
  ∃ name ∈ db.names, fcur.friend = some name ∧ FileName name ∧ name.length < lim.nameMaxlen

theorem dbFriendInit_eq (hmem : name ∈ db.names) (hfriend : fcur.friend = some name) :
    db.dbFriendInit name fcur.status fcur.status_ne = fcur := by
  obtain ⟨u, hu⟩ := Db.mem_names.1 hmem
  obtain ⟨friend, status, hst⟩ := fcur
  obtain rfl := hfriend
  simp [Db.dbFriendInit, hu, Db.name_of_findUser hu]

theorem statusWord_head (st : ImpFriend) : statusWord st = [] ∨ ∃ t, statusWord st = ' ' :: t := by
  cases st with
  | not => exact Or.inl rfl
  | requested => exact Or.inr ⟨_, rfl⟩
  | toanswer => exact Or.inr ⟨_, rfl⟩
  | yes => exact Or.inl rfl

theorem entryLine_eq (hfriend : fcur.friend = some name) :
    entryLine fcur = '-' :: ' ' :: (name ++ statusWord fcur.status) := by
  rw [entryLine, hfriend]
  rfl

/-- The first word of the line is the name. -/
theorem scanWord_entry (hname : Word name) (st : ImpFriend) :
    scanWord (' ' :: (name ++ statusWord st)) = (name, statusWord st) := by
  rw [scanWord_blank, scanWord_append hname (statusWord_head st)]

/-- The line of an entry makes the entry. -/
theorem readFriend_entryLine (h : Readable lim db fcur) (fname : Option CStr) :
    ∃ fname', readFriend lim db fname (entryLine fcur) = .ok (fname', fcur) := by
  obtain ⟨name, hmem, hfriend, hname, hlen⟩ := h
  have hinit := dbFriendInit_eq hmem hfriend
  refine ⟨name, ?_⟩
  rw [entryLine_eq hfriend]
  unfold readFriend
  simp only [scanWord_entry hname.toWord, if_neg hname.ne_nil, if_neg (Nat.not_lt.2 hlen)]
  obtain ⟨friend, status, hst⟩ := fcur
  cases status with
  | not => exact absurd rfl hst
  | requested =>
    have hstatus : scanWord (statusWord .requested) = ("requested".toList, []) := by decide
    simp only [hstatus]
    rw [if_neg (by decide), if_neg (by decide), if_pos trivial, hinit]
  | toanswer =>
    have hstatus : scanWord (statusWord .toanswer) = ("toanswer".toList, []) := by decide
    simp only [hstatus]
    rw [if_neg (by decide), if_neg (by decide), if_neg (by decide), hinit]
  | yes =>
    have hstatus : scanWord (statusWord .yes) = ([], []) := by decide
    simp only [hstatus]
    rw [if_pos trivial, hinit]

/-- A line that `getliner` takes, and that is not the dot behind the friends. -/
theorem getliner_entryLine (hfriend : fcur.friend = some name) (hname : FileName name) :
    getliner 1 (entryLine fcur ++ ['\n']) = some (entryLine fcur) ∧ entryLine fcur ≠ ['.'] := by
  rw [entryLine_eq hfriend]
  have hstatus : '\x00' ∉ statusWord fcur.status := by cases fcur.status <;> decide
  have hnul : '\x00' ∉ '-' :: ' ' :: (name ++ statusWord fcur.status) := by
    simp [hname.nul, hstatus]
  exact ⟨getliner_newline (List.cons_ne_nil _ _) hnul (by simp), by simp⟩

theorem skipFriends_entries {es : List DbFriend} (h : ∀ e ∈ es, Readable lim db e)
    (file : List (List Char)) :
    skipFriends ((es.map fun e => entryLine e ++ ['\n']) ++ ['.', '\n'] :: file) = .ok file := by
  induction es with
  | nil => rfl
  | cons e es ih =>
    obtain ⟨name, -, hfriend, hname, -⟩ := h e List.mem_cons_self
    obtain ⟨hget, hne⟩ := getliner_entryLine hfriend hname
    rw [List.map_cons, List.cons_append, skipFriends, hget]
    simp only [if_neg hne]
    exact ih fun e' he' => h e' (List.mem_cons_of_mem _ he')

theorem readFriends_entries {es : List DbFriend} (h : ∀ e ∈ es, Readable lim db e) (last : Bool)
    (fname : Option CStr) (file : List (List Char)) :
    readFriends lim db last fname ((es.map fun e => entryLine e ++ ['\n']) ++ ['.', '\n'] :: file) =
      .ok (es, file) := by
  induction es generalizing fname with
  | nil => rfl
  | cons e es ih =>
    obtain ⟨name, -, hfriend, hname, -⟩ := h e List.mem_cons_self
    obtain ⟨hget, hne⟩ := getliner_entryLine hfriend hname
    obtain ⟨fname', hread⟩ := readFriend_entryLine (h e List.mem_cons_self) fname
    rw [List.map_cons, List.cons_append, readFriends, hget]
    simp only [if_neg hne, hread, bind, Except.bind,
      ih fun e' he' => h e' (List.mem_cons_of_mem _ he')]

/-- The lines of the users as they stand in the file. -/
def fileLines (us : List DbUser) : List (List Char) :=
  (us.flatMap blockLines).map (· ++ ['\n'])

theorem fileLines_cons (u : DbUser) (us : List DbUser) : fileLines (u :: us) =
    (u.name ++ ['\n']) :: ((u.flist.map fun e => entryLine e ++ ['\n']) ++
      ['.', '\n'] :: fileLines us) := by
  simp [fileLines, blockLines, Function.comp_def]

theorem readUsers_fileLines {us : List DbUser} (hn : ∀ u ∈ us, FileName u.name)
    (he : ∀ u ∈ us, ∀ e ∈ u.flist, Readable lim db e) :
    readUsers us.length (fileLines us) = .ok (us.map DbUser.name) := by
  induction us with
  | nil => rfl
  | cons u us ih =>
    have hname := hn u List.mem_cons_self
    have hget := getliner_newline hname.ne_nil hname.nul (List.length_pos_of_ne_nil hname.ne_nil)
    rw [fileLines_cons, List.length_cons, readUsers, hget]
    simp only [skipFriends_entries (he u List.mem_cons_self), bind, Except.bind,
      ih (fun v hv => hn v (List.mem_cons_of_mem _ hv))
        fun v hv => he v (List.mem_cons_of_mem _ hv), List.map_cons]

theorem readFlists_fileLines {us : List DbUser} (hn : ∀ u ∈ us, FileName u.name)
    (he : ∀ u ∈ us, ∀ e ∈ u.flist, Readable lim db e) :
    readFlists lim db us.length (fileLines us) = .ok (us.map DbUser.flist) := by
  induction us with
  | nil => rfl
  | cons u us ih =>
    have hname := hn u List.mem_cons_self
    have hget := getliner_newline hname.ne_nil hname.nul (List.length_pos_of_ne_nil hname.ne_nil)
    rw [fileLines_cons, List.length_cons, readFlists, hget]
    simp only [readFriends_entries (he u List.mem_cons_self), bind, Except.bind,
      ih (fun v hv => hn v (List.mem_cons_of_mem _ hv))
        fun v hv => he v (List.mem_cons_of_mem _ hv), List.map_cons]

/-- The first line of the file. -/
def headerLine (unum : ℕ) : CStr :=
  Nat.toDigits 10 unum ++ " users:".toList

theorem notMem_headerLine {c : Char} (hc : c.isDigit = false) (hc' : c ∉ " users:".toList)
    (unum : ℕ) : c ∉ headerLine unum := by
  rw [headerLine, List.mem_append, not_or]
  refine ⟨fun hd => ?_, hc'⟩
  rw [Nat.isDigit_of_mem_toDigits (by decide) (by decide) hd] at hc
  cases hc

theorem newline_notMem_headerLine (unum : ℕ) : '\n' ∉ headerLine unum :=
  notMem_headerLine (by decide) (by decide) unum

theorem getliner_headerLine (unum : ℕ) :
    getliner 8 (headerLine unum ++ ['\n']) = some (headerLine unum) := by
  have hlen : 0 < (Nat.toDigits 10 unum).length := List.length_pos_of_ne_nil Nat.toDigits_ne_nil
  refine getliner_newline (by simp [headerLine]) (notMem_headerLine (by decide) (by decide) unum) ?_
  simp only [headerLine, List.length_append]
  exact Nat.add_le_add_right hlen 7

theorem scanUnsigned_headerLine (hn : n < 2 ^ 32) : scanUnsigned (headerLine n) = some n :=
  scanUnsigned_digits hn "users:".toList

theorem udbaseWrite_eq (h : ∀ u ∈ db.users, ∀ e ∈ u.flist, ∃ name, e.friend = some name) :
    udbaseWrite db = some (unlines (headerLine db.unum :: db.users.flatMap blockLines)) := by
  have hentries : ∀ es : List DbFriend, (∀ e ∈ es, ∃ name, e.friend = some name) →
      es.mapM friendLine = some (es.map entryLine) := by
    intro es
    induction es with
    | nil => exact fun _ => rfl
    | cons e es ih =>
      intro he
      obtain ⟨name, hname⟩ := he e List.mem_cons_self
      rw [List.mapM_cons, ih fun e' he' => he e' (List.mem_cons_of_mem _ he'), friendLine, hname,
        List.map_cons, entryLine, hname]
      rfl
  have husers : ∀ us : List DbUser, (∀ u ∈ us, ∀ e ∈ u.flist, ∃ name, e.friend = some name) →
      us.mapM userLines = some (us.map blockLines) := by
    intro us
    induction us with
    | nil => exact fun _ => rfl
    | cons u us ih =>
      intro hu
      rw [List.mapM_cons, ih fun v hv => hu v (List.mem_cons_of_mem _ hv), userLines,
        hentries _ (hu u List.mem_cons_self)]
      rfl
  rw [udbaseWrite, husers _ h, Option.map_some, headerLine, List.flatMap_def]

theorem newline_notMem_lines (hn : ∀ u ∈ db.users, FileName u.name)
    (he : ∀ u ∈ db.users, ∀ e ∈ u.flist, ∃ name, e.friend = some name ∧ FileName name) :
    ∀ l ∈ headerLine db.unum :: db.users.flatMap blockLines, '\n' ∉ l := by
  intro l hl
  rcases List.mem_cons.1 hl with rfl | hl
  · exact newline_notMem_headerLine _
  · obtain ⟨u, hu, hl⟩ := List.mem_flatMap.1 hl
    simp only [blockLines, List.cons_append, List.mem_cons, List.mem_append, List.mem_map,
      List.not_mem_nil, or_false] at hl
    rcases hl with rfl | ⟨e, he', rfl⟩ | rfl
    · exact (hn u hu).newline
    · obtain ⟨name, hfriend, hname⟩ := he u hu e he'
      rw [entryLine, hfriend]
      simp only [Option.getD_some, List.mem_append, not_or]
      refine ⟨⟨by decide, hname.newline⟩, ?_⟩
      cases e.status <;> decide
    · decide

theorem map_zip_flist (us : List DbUser) :
    ((((us.map DbUser.name).map dbUserInit).zip (us.map DbUser.flist)).map
      fun (ucur, flist) => { ucur with flist := flist }) = us.map fun u => u.rebind .not (-1) := by
  induction us with
  | nil => rfl
  | cons u us ih =>
    simp only [List.map_cons, List.zip_cons_cons, ih]
    rfl

/-- A saved database is loaded again as it was, with nobody active. -/
theorem udbaseRead_udbaseWrite (h : Savable lim db) :
    ∃ text, udbaseWrite db = some text ∧ udbaseRead lim text = .ok db.restart := by
  refine ⟨_, udbaseWrite_eq fun u hu e he => ?_, ?_⟩
  · obtain ⟨name, -, hfriend, -⟩ := h.entries u hu e he
    exact ⟨name, hfriend⟩
  have hnames : ∀ u ∈ db.users, FileName u.name := fun u hu => h.names _ (List.mem_map_of_mem hu)
  -- the second pass resolves the entries among the users the first one made
  have hreadable : ∀ u ∈ db.users, ∀ e ∈ u.flist,
      Readable lim ⟨(db.users.map DbUser.name).map dbUserInit, db.unum⟩ e := by
    intro u hu e he
    obtain ⟨name, hname, hfriend, hlen⟩ := h.entries u hu e he
    refine ⟨name, ?_, hfriend, h.names _ hname, hlen⟩
    simpa [Db.names, dbUserInit, Function.comp_def] using hname
  have hwritten : ∀ u ∈ db.users, ∀ e ∈ u.flist, ∃ name, e.friend = some name ∧ FileName name := by
    intro u hu e he
    obtain ⟨name, hname, hfriend, -⟩ := h.entries u hu e he
    exact ⟨name, hfriend, h.names _ hname⟩
  rw [udbaseRead, lines_unlines (newline_notMem_lines hnames hwritten), List.map_cons]
  simp only [getliner_headerLine, scanUnsigned_headerLine h.unum_lt]
  rw [h.unum]
  rw [h.unum] at hreadable
  have hread := readUsers_fileLines hnames hreadable
  have hflists := readFlists_fileLines hnames hreadable
  rw [fileLines] at hread hflists
  simp only [hread, hflists, bind, Except.bind, map_zip_flist, Db.restart, h.unum]

end Ims

end ClassProjects
