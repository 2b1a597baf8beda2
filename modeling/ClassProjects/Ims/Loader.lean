import ClassProjects.Ims.Persistence

/-!
# Which files the loader can resolve

What `udbaseRead` does with a file of any content. `blocks` is the file as its format has
it : a name and the friend lines of each user. Both passes are functions of the blocks
(`readUsers_eq`, `readFlists_eq`), so the second one reads the users the first one made.

A friend line that names nobody, because it has no `-` or no word behind it, is taken for
the name of the line before. So the loader resolves a file exactly if the first friend
line of every user has a name, and every name is that of a user and fits the array
(`rejectsOrResolves_iff`).
-/

namespace ClassProjects

namespace Ims

open Lines

variable {lim : ImpLimits} {db : Db} {text : List Char} {file rest : List (List Char)} {n : ℕ}
  {fname : Option CStr} {line name : CStr} {ls : List CStr} {bs : List (CStr × List CStr)}

/-! ## The file as its format has it -/

/-- The lines up to the one with a dot, and what is behind it. -/
def takeFriends : List (List Char) → Option (List CStr × List (List Char))
  | [] => none
  | l :: file =>
    match getliner 1 l with
    | none => none
    | some line =>
      if line = ['.'] then some ([], file)
      else (takeFriends file).map fun r => (line :: r.1, r.2)

/-- The name and the friend lines of `n` users. -/
def blocks : ℕ → List (List Char) → Option (List (CStr × List CStr))
  | 0, _ => some []
  | _ + 1, [] => none
  | n + 1, l :: file =>
    match getliner 1 l with
    | none => none
    | some name =>
      match takeFriends file with
      | none => none
      | some (ls, file) => (blocks n file).map ((name, ls) :: ·)

/-- The two words of a friend line, if it has a first one. -/
def friendWords : CStr → Option (CStr × CStr)
  | '-' :: s =>
    let (name, s) := scanWord s
    if name = [] then none else some (name, (scanWord s).1)
  | _ => none

/-- If the line has a name, it is that of a user, and both words fit their arrays. -/
def namesUser (lim : ImpLimits) (names : List CStr) (line : CStr) : Bool :=
  match friendWords line with
  | none => true
  | some (name, status) =>
    names.any (fun n => n = name) && name.length < lim.nameMaxlen && status.length < 10

/-- The first line has a name, if there is one. -/
def startsNamed : List CStr → Bool
  | [] => true
  | line :: _ => (friendWords line).isSome

/-- The friend lines of every user start with a name, and the names are those of users. -/
def goodBlocks (lim : ImpLimits) (bs : List (CStr × List CStr)) : Bool :=
  bs.all fun b => startsNamed b.2 && b.2.all (namesUser lim (bs.map Prod.fst))

/-- The loader does not take the first line, or the line has a number and there are fewer
blocks, or the blocks are good. -/
def goodFile (lim : ImpLimits) (text : List Char) : Bool :=
  match lines text with
  | [] => true
  | l :: file =>
    match getliner 8 l with
    | none => true
    | some line =>
      match scanUnsigned line with
      | none => false
      | some n =>
        match blocks n file with
        | none => true
        | some bs => goodBlocks lim bs

/-! ## The two passes -/

theorem skipFriends_eq (file : List (List Char)) : skipFriends file =
    match takeFriends file with
    | none => .error .failed
    | some r => .ok r.2 := by
  induction file with
  | nil => rfl
  | cons l file ih =>
    unfold skipFriends takeFriends
    cases getliner 1 l with
    | none => rfl
    | some line =>
      dsimp only
      split_ifs
      · rfl
      · rw [ih]
        cases takeFriends file <;> rfl

theorem readUsers_eq (n : ℕ) (file : List (List Char)) : readUsers n file =
    match blocks n file with
    | none => .error .failed
    | some bs => .ok (bs.map Prod.fst) := by
  induction n generalizing file with
  | zero => rfl
  | succ n ih =>
    cases file with
    | nil => rfl
    | cons l file =>
      unfold readUsers blocks
      cases getliner 1 l with
      | none => rfl
      | some name =>
        dsimp only
        rw [skipFriends_eq]
        cases takeFriends file with
        | none => rfl
        | some r =>
          obtain ⟨ls, rest⟩ := r
          simp only [bind, Except.bind, ih]
          cases blocks n rest <;> rfl

/-- The entries of a user's friend lines. -/
def entries (lim : ImpLimits) (db : Db) :
    Option CStr → List CStr → Except LoadError (List DbFriend)
  | _, [] => .ok []
  | fname, line :: ls => do
    let (fname, fcur) ← readFriend lim db fname line
    let rest ← entries lim db (some fname) ls
    .ok (fcur :: rest)

theorem readFriends_eq (h : takeFriends file = some (ls, rest)) (last : Bool)
    (fname : Option CStr) : readFriends lim db last fname file =
      (entries lim db fname ls).map fun flist => (flist, rest) := by
  induction file generalizing ls fname with
  | nil => cases h
  | cons l file ih =>
    unfold takeFriends at h
    unfold readFriends
    cases hl : getliner 1 l with
    | none => simp [hl] at h
    | some line =>
      simp only [hl] at h ⊢
      split_ifs at h ⊢ with hdot
      · obtain ⟨rfl, rfl⟩ := Prod.mk.inj (Option.some.inj h)
        rfl
      · obtain ⟨⟨ls', rest'⟩, hr, heq⟩ := Option.map_eq_some_iff.1 h
        obtain ⟨rfl, rfl⟩ := Prod.mk.inj heq
        rw [entries]
        cases readFriend lim db fname line with
        | error e => rfl
        | ok r =>
          obtain ⟨fname', fcur⟩ := r
          simp only [bind, Except.bind, ih hr]
          cases entries lim db (some fname') ls' <;> rfl

theorem readFlists_eq (h : blocks n file = some bs) : readFlists lim db n file =
    bs.mapM fun b => entries lim db none b.2 := by
  induction n generalizing file bs with
  | zero =>
    obtain rfl := Option.some.inj h
    rfl
  | succ n ih =>
    cases file with
    | nil => cases h
    | cons l file =>
      unfold blocks at h
      unfold readFlists
      cases hl : getliner 1 l with
      | none => simp [hl] at h
      | some name =>
        simp only [hl] at h ⊢
        cases ht : takeFriends file with
        | none => simp [ht] at h
        | some r =>
          obtain ⟨ls, rest⟩ := r
          simp only [ht] at h
          obtain ⟨bs', hbs, rfl⟩ := Option.map_eq_some_iff.1 h
          rw [readFriends_eq ht, List.mapM_cons]
          cases entries lim db none ls with
          | error e => rfl
          | ok flist =>
            simp only [Except.map, bind, Except.bind, ih hbs]
            rfl

/-! ## One friend line -/

theorem namesUser_iff {status : CStr} {names : List CStr}
    (h : friendWords line = some (name, status)) : namesUser lim names line = true ↔
      name ∈ names ∧ name.length < lim.nameMaxlen ∧ status.length < 10 := by
  simp only [namesUser, h, Bool.and_eq_true, List.any_eq_true, decide_eq_true_eq, exists_eq_right,
    and_assoc]

theorem friend_dbFriendInit {st : ImpFriend} {hst : st ≠ .not} :
    (db.dbFriendInit name st hst).friend = if name ∈ db.names then some name else none := by
  split_ifs with hmem
  · obtain ⟨u, hu⟩ := Db.mem_names.1 hmem
    simp [Db.dbFriendInit, hu, Db.name_of_findUser hu]
  · have hnone : db.findUser name = none := by
      rw [← Option.not_isSome_iff_eq_none, Option.isSome_iff_exists]
      exact fun h => hmem (Db.mem_names.2 h)
    simp [Db.dbFriendInit, hnone]

/-- A line with a name makes an entry for the name, if its words fit. -/
theorem readFriend_words {status : CStr} (h : friendWords line = some (name, status)) :
    (name.length < lim.nameMaxlen ∧ status.length < 10 →
      ∃ st hst, readFriend lim db fname line = .ok (name, db.dbFriendInit name st hst)) ∧
    (¬(name.length < lim.nameMaxlen ∧ status.length < 10) →
      readFriend lim db fname line = .error .undefined) := by
  unfold friendWords at h
  split at h
  · rename_i s
    dsimp only at h
    split_ifs at h with hne
    obtain ⟨rfl, rfl⟩ := Prod.mk.inj (Option.some.inj h)
    unfold readFriend
    simp only [if_neg hne]
    constructor
    · rintro ⟨hname, hstatus⟩
      rw [if_neg (Nat.not_lt.2 hname), if_neg (Nat.not_lt.2 hstatus)]
      split_ifs
      · exact ⟨_, yes_ne, rfl⟩
      · exact ⟨_, requested_ne, rfl⟩
      · exact ⟨_, toanswer_ne, rfl⟩
    · intro hfit
      split_ifs with hname hnil hstatus
      · rfl
      · simp only [hnil, List.length_nil] at hfit
        omega
      · rfl
      · omega
      · omega
  · cases h

theorem scanWord_of_friendWords {s : CStr} (h : friendWords ('-' :: s) = none) :
    (scanWord s).1 = [] := by
  by_contra hne
  simp [friendWords, hne] at h

/-- A line without one makes an entry for the name before it. -/
theorem readFriend_none (h : friendWords line = none) : readFriend lim db fname line =
    match fname with
    | none => .error .undefined
    | some fname => .ok (fname, db.dbFriendInit fname .yes yes_ne) := by
  cases line with
  | nil => cases fname <;> rfl
  | cons c s =>
    by_cases hc : c = '-'
    · subst hc
      have hne := scanWord_of_friendWords h
      cases fname <;> simp only [readFriend, if_pos hne]
    · cases fname <;> simp [readFriend, hc]

/-- The line is taken for a name that is a user's. -/
def GoodLine (lim : ImpLimits) (names : List CStr) (fname : Option CStr) (line : CStr) : Prop :=
  (fname = none → (friendWords line).isSome = true) ∧ namesUser lim names line = true

/-- A good line makes an entry that points to a user. -/
theorem readFriend_good (hf : ∀ f, fname = some f → f ∈ db.names)
    (h : GoodLine lim db.names fname line) : ∃ f fcur,
      readFriend lim db fname line = .ok (f, fcur) ∧ f ∈ db.names ∧ fcur.friend = some f := by
  obtain ⟨hnamed, hnames⟩ := h
  cases hw : friendWords line with
  | none =>
    cases fname with
    | none => simp [hw] at hnamed
    | some f =>
      exact ⟨f, _, readFriend_none hw, hf f rfl, by rw [friend_dbFriendInit, if_pos (hf f rfl)]⟩
  | some words =>
    obtain ⟨name, status⟩ := words
    obtain ⟨hmem, hfit⟩ := (namesUser_iff hw).1 hnames
    obtain ⟨st, hst, hread⟩ := (readFriend_words hw).1 hfit
    exact ⟨name, _, hread, hmem, by rw [friend_dbFriendInit, if_pos hmem]⟩

/-- Any other line is undefined, or makes an entry that points nowhere. -/
theorem readFriend_bad (hf : ∀ f, fname = some f → f ∈ db.names)
    (h : ¬GoodLine lim db.names fname line) : readFriend lim db fname line = .error .undefined ∨
      ∃ f fcur, readFriend lim db fname line = .ok (f, fcur) ∧ fcur.friend = none := by
  cases hw : friendWords line with
  | none =>
    cases fname with
    | none => exact Or.inl (readFriend_none hw)
    | some f => exact absurd ⟨by simp, by simp [namesUser, hw]⟩ h
  | some words =>
    obtain ⟨name, status⟩ := words
    have hno : ¬namesUser lim db.names line = true := fun hnames => h ⟨by simp [hw], hnames⟩
    rw [namesUser_iff hw] at hno
    by_cases hfit : name.length < lim.nameMaxlen ∧ status.length < 10
    · obtain ⟨st, hst, hread⟩ := (readFriend_words hw).1 hfit
      refine Or.inr ⟨name, _, hread, ?_⟩
      rw [friend_dbFriendInit, if_neg fun hmem => hno ⟨hmem, hfit⟩]
    · exact Or.inl ((readFriend_words hw).2 hfit)

/-! ## The friend lists -/

/-- Every entry points to a user. -/
def Resolved (db : Db) (flist : List DbFriend) : Prop :=
  ∀ e ∈ flist, ∃ name ∈ db.names, e.friend = some name

theorem resolved_cons {fcur : DbFriend} {flist : List DbFriend} : Resolved db (fcur :: flist) ↔
    (∃ name ∈ db.names, fcur.friend = some name) ∧ Resolved db flist :=
  List.forall_mem_cons

theorem entries_cons (lim : ImpLimits) (db : Db) (fname : Option CStr) (line : CStr)
    (ls : List CStr) (flist : List DbFriend) : entries lim db fname (line :: ls) = .ok flist ↔
      ∃ f fcur rest, readFriend lim db fname line = .ok (f, fcur) ∧
        entries lim db (some f) ls = .ok rest ∧ flist = fcur :: rest := by
  rw [entries, bind_eq_ok]
  constructor
  · rintro ⟨⟨f, fcur⟩, hread, h⟩
    obtain ⟨rest, hrest, h⟩ := bind_eq_ok.1 h
    exact ⟨f, fcur, rest, hread, hrest, (Except.ok.inj h).symm⟩
  · rintro ⟨f, fcur, rest, hread, hrest, rfl⟩
    exact ⟨(f, fcur), hread, bind_eq_ok.2 ⟨rest, hrest, rfl⟩⟩

/-- The lines of a user make entries that point to users exactly if they are good, the first
one with what came before. -/
theorem entries_resolved (hf : ∀ f, fname = some f → f ∈ db.names) :
    (∃ flist, entries lim db fname ls = .ok flist ∧ Resolved db flist) ↔
      (fname = none → startsNamed ls = true) ∧ ls.all (namesUser lim db.names) = true := by
  induction ls generalizing fname with
  | nil => exact iff_of_true ⟨[], rfl, by simp [Resolved]⟩ ⟨fun _ => rfl, rfl⟩
  | cons line ls ih =>
    have hcons : ((fname = none → startsNamed (line :: ls) = true) ∧
        (line :: ls).all (namesUser lim db.names) = true) ↔
        GoodLine lim db.names fname line ∧ ls.all (namesUser lim db.names) = true := by
      rw [startsNamed, List.all_cons, Bool.and_eq_true, GoodLine, and_assoc]
    rw [hcons]
    by_cases hgood : GoodLine lim db.names fname line
    · obtain ⟨f, fcur, hread, hmem, hfriend⟩ := readFriend_good hf hgood
      have hrest := @ih (some f) fun f' hf' => Option.some.inj hf' ▸ hmem
      simp only [reduceCtorEq, false_implies, true_and] at hrest
      rw [and_iff_right hgood, ← hrest]
      constructor
      · rintro ⟨flist, h, hres⟩
        obtain ⟨f', fcur', rest, hread', hrest, rfl⟩ := (entries_cons ..).1 h
        obtain ⟨rfl, -⟩ := Prod.mk.inj (Except.ok.inj (hread.symm.trans hread'))
        exact ⟨rest, hrest, (resolved_cons.1 hres).2⟩
      · rintro ⟨rest, h, hres⟩
        exact ⟨fcur :: rest, (entries_cons ..).2 ⟨f, fcur, rest, hread, h, rfl⟩,
          resolved_cons.2 ⟨⟨f, hmem, hfriend⟩, hres⟩⟩
    · refine iff_of_false ?_ fun h => hgood h.1
      rintro ⟨flist, h, hres⟩
      obtain ⟨f, fcur, rest, hread, -, rfl⟩ := (entries_cons ..).1 h
      rcases readFriend_bad hf hgood with hbad | ⟨f', fcur', hbad, hnone⟩
      · rw [hbad] at hread
        cases hread
      · obtain ⟨-, rfl⟩ := Prod.mk.inj (Except.ok.inj (hbad.symm.trans hread))
        obtain ⟨⟨name, -, hname⟩, -⟩ := resolved_cons.1 hres
        rw [hnone] at hname
        cases hname

theorem bind_eq_error {α β : Type} {x : Except LoadError α} {f : α → Except LoadError β}
    {e : LoadError} : x >>= f = .error e ↔ x = .error e ∨ ∃ a, x = .ok a ∧ f a = .error e := by
  cases x with
  | error e' => simp [bind, Except.bind]
  | ok a => simp [bind, Except.bind]

theorem readFriend_error {e : LoadError} (h : readFriend lim db fname line = .error e) :
    e = .undefined := by
  cases hw : friendWords line with
  | none =>
    rw [readFriend_none hw] at h
    cases fname with
    | none => exact (Except.error.inj h).symm
    | some f => cases h
  | some words =>
    obtain ⟨name, status⟩ := words
    by_cases hfit : name.length < lim.nameMaxlen ∧ status.length < 10
    · obtain ⟨st, hst, hread⟩ : ∃ st hst, readFriend lim db fname line =
          .ok (name, db.dbFriendInit name st hst) := (readFriend_words hw).1 hfit
      rw [hread] at h
      cases h
    · rw [(readFriend_words hw).2 hfit] at h
      exact (Except.error.inj h).symm

theorem entries_error {e : LoadError} (h : entries lim db fname ls = .error e) :
    e = .undefined := by
  induction ls generalizing fname with
  | nil => cases h
  | cons line ls ih =>
    rcases bind_eq_error.1 h with h | ⟨⟨f, fcur⟩, -, h⟩
    · exact readFriend_error h
    · rcases bind_eq_error.1 h with h | ⟨rest, -, h⟩
      · exact ih h
      · cases h

/-- The second pass fails nowhere : what it cannot read is undefined. -/
theorem readFlists_error {e : LoadError} (hbs : blocks n file = some bs)
    (h : readFlists lim db n file = .error e) : e = .undefined := by
  rw [readFlists_eq hbs] at h
  clear hbs
  induction bs with
  | nil => cases h
  | cons b bs ih =>
    rw [List.mapM_cons] at h
    rcases bind_eq_error.1 h with h | ⟨flist, -, h⟩
    · exact entries_error h
    · rcases bind_eq_error.1 h with h | ⟨rest, -, h⟩
      · exact ih h
      · cases h

theorem exists_mapM_ok {α β : Type} {f : α → Except LoadError β} {P : β → Prop} (l : List α) :
    (∃ ys, l.mapM f = .ok ys ∧ ∀ y ∈ ys, P y) ↔ ∀ x ∈ l, ∃ y, f x = .ok y ∧ P y := by
  induction l with
  | nil => simp [List.mapM_nil, pure, Except.pure]
  | cons x l ih =>
    rw [List.forall_mem_cons, ← ih, List.mapM_cons]
    constructor
    · rintro ⟨ys, h, hys⟩
      obtain ⟨y, hy, h⟩ := bind_eq_ok.1 h
      obtain ⟨ys', hys', h⟩ := bind_eq_ok.1 h
      obtain rfl := Except.ok.inj h
      obtain ⟨hPy, hPys⟩ := List.forall_mem_cons.1 hys
      exact ⟨⟨y, hy, hPy⟩, ys', hys', hPys⟩
    · rintro ⟨⟨y, hy, hPy⟩, ys, hys, hPys⟩
      exact ⟨y :: ys, bind_eq_ok.2 ⟨y, hy, bind_eq_ok.2 ⟨ys, hys, rfl⟩⟩,
        List.forall_mem_cons.2 ⟨hPy, hPys⟩⟩

/-- The second pass makes entries that all point to users exactly if the blocks are good. -/
theorem readFlists_resolved (hbs : blocks n file = some bs) (hnames : db.names = bs.map Prod.fst) :
    (∃ flists, readFlists lim db n file = .ok flists ∧ ∀ flist ∈ flists, Resolved db flist) ↔
      goodBlocks lim bs = true := by
  rw [readFlists_eq hbs, exists_mapM_ok, goodBlocks, List.all_eq_true, ← hnames]
  refine forall₂_congr fun b _ => ?_
  rw [entries_resolved (by simp), Bool.and_eq_true]
  simp

/-! ## The loader -/

/-- The file is rejected, or becomes a database with as many users as its header says and with
a user behind every entry. Then it can be saved, and the handlers keep it so. -/
def RejectsOrResolves (lim : ImpLimits) (text : List Char) : Prop :=
  udbaseRead lim text = .error .failed ∨
  ∃ db, udbaseRead lim text = .ok db ∧
    (∃ l file line, lines text = l :: file ∧ getliner 8 l = some line ∧
      scanUnsigned line = some db.users.length) ∧
    db.Resolves ∧ (∃ saved, udbaseWrite db = some saved) ∧
    ∀ evs db' out, Machine.run (step lim) db evs = some (db', out) → db'.Resolves

theorem udbaseWrite_of_resolves (h : db.Resolves) : ∃ saved, udbaseWrite db = some saved :=
  ⟨_, udbaseWrite_eq fun u hu e he => (h u hu e he).imp fun _ hname => hname.2⟩

/-- Undefined behaviour is neither. -/
theorem not_rejectsOrResolves (h : udbaseRead lim text = .error .undefined) :
    ¬RejectsOrResolves lim text := by
  rintro (hfail | ⟨db, hok, -⟩)
  · rw [h] at hfail
    cases hfail
  · rw [h] at hok
    cases hok

/-- A database that is loaded can be used if every entry points to a user. -/
theorem rejectsOrResolves_of_ok (h : udbaseRead lim text = .ok db) :
    RejectsOrResolves lim text ↔ db.Resolves := by
  constructor
  · rintro (hfail | ⟨db', hread, -, hres, -⟩)
    · rw [hfail] at h
      cases h
    · rwa [Except.ok.inj (h.symm.trans hread)]
  · intro hres
    obtain ⟨⟨l, file, line, hlines, hline, hscan⟩, hlen, -⟩ := udbaseRead_ok h
    exact Or.inr ⟨db, h, ⟨l, file, line, hlines, hline, hlen.symm ▸ hscan⟩, hres,
      udbaseWrite_of_resolves hres, fun evs db' out hrun => (users_of_run hrun).2.1 hres⟩

/-- The database after the first pass. -/
def firstPass (n : ℕ) (bs : List (CStr × List CStr)) : Db :=
  ⟨(bs.map Prod.fst).map dbUserInit, n⟩

/-- The users of a database with friend lists. -/
def Db.withFlists (db : Db) (flists : List (List DbFriend)) : Db :=
  { db with users := (db.users.zip flists).map fun (ucur, flist) => { ucur with flist := flist } }

theorem names_firstPass (n : ℕ) (bs : List (CStr × List CStr)) :
    (firstPass n bs).names = bs.map Prod.fst := by
  simp [firstPass, Db.names, dbUserInit, Function.comp_def]

theorem resolves_withFlists {flists : List (List DbFriend)}
    (hlen : db.users.length = flists.length) :
    (db.withFlists flists).Resolves ↔ ∀ flist ∈ flists, Resolved db flist := by
  have hnames : (db.withFlists flists).names = db.names := by
    calc (db.withFlists flists).names
        = ((db.users.zip flists).map Prod.fst).map DbUser.name := by
          rw [Db.names, Db.withFlists, List.map_map, List.map_map]
          rfl
      _ = db.names := by rw [List.map_fst_zip hlen.le, Db.names]
  have hflists : (db.withFlists flists).users.map DbUser.flist = flists := by
    calc (db.withFlists flists).users.map DbUser.flist
        = (db.users.zip flists).map Prod.snd := by
          rw [Db.withFlists, List.map_map]
          rfl
      _ = flists := List.map_snd_zip hlen.ge
  rw [Db.Resolves, hnames]
  constructor
  · intro h flist hmem
    rw [← hflists] at hmem
    obtain ⟨u, hu, rfl⟩ := List.mem_map.1 hmem
    exact h u hu
  · intro h u hu
    exact h u.flist (hflists ▸ List.mem_map_of_mem hu)

/-- What is left of the loader on a file with enough blocks. -/
theorem udbaseRead_eq (lim : ImpLimits) {l : List Char} (hlines : lines text = l :: file)
    (hline : getliner 8 l = some line) (hscan : scanUnsigned line = some n)
    (hbs : blocks n file = some bs) : udbaseRead lim text =
      (readFlists lim (firstPass n bs) n file).map (firstPass n bs).withFlists := by
  have husers := readUsers_eq n file
  simp only [hbs] at husers
  simp only [udbaseRead, hlines, hline, hscan, husers]
  change (readFlists lim (firstPass n bs) n file >>= _) = _
  cases readFlists lim (firstPass n bs) n file <;> rfl

/-- A file with enough blocks is resolved exactly if they are good. -/
theorem rejectsOrResolves_blocks {l : List Char} (hlines : lines text = l :: file)
    (hline : getliner 8 l = some line) (hscan : scanUnsigned line = some n)
    (hbs : blocks n file = some bs) :
    RejectsOrResolves lim text ↔ goodBlocks lim bs = true := by
  have hread := udbaseRead_eq lim hlines hline hscan hbs
  rw [← readFlists_resolved hbs (names_firstPass n bs)]
  cases hflists : readFlists lim (firstPass n bs) n file with
  | error e =>
    obtain rfl := readFlists_error hbs hflists
    rw [hflists] at hread
    refine iff_of_false ?_ (by simp)
    exact not_rejectsOrResolves hread
  | ok flists =>
    rw [hflists] at hread
    have hlen : (firstPass n bs).users.length = flists.length := by
      have husers := readUsers_eq n file
      rw [hbs] at husers
      rw [readFlists_ok hflists, ← (readUsers_ok husers).1]
      simp [firstPass]
    rw [rejectsOrResolves_of_ok hread, resolves_withFlists hlen]
    simp

/-- The loader rejects a file or resolves it exactly if it is a good one : the first line is
not taken, or it has a number, and as far as there are that many users, the first friend line
of each has a name, and every name is that of a user and fits the reader's array. -/
theorem rejectsOrResolves_iff (lim : ImpLimits) (text : List Char) :
    RejectsOrResolves lim text ↔ goodFile lim text = true := by
  unfold goodFile
  cases hlines : lines text with
  | nil => exact iff_of_true (Or.inl (by simp only [udbaseRead, hlines])) rfl
  | cons l file =>
    dsimp only
    cases hline : getliner 8 l with
    | none => exact iff_of_true (Or.inl (by simp only [udbaseRead, hlines, hline])) rfl
    | some line =>
      dsimp only
      cases hscan : scanUnsigned line with
      | none =>
        refine iff_of_false (not_rejectsOrResolves ?_) Bool.false_ne_true
        simp only [udbaseRead, hlines, hline, hscan]
      | some n =>
        dsimp only
        cases hbs : blocks n file with
        | none =>
          have husers := readUsers_eq n file
          simp only [hbs] at husers
          refine iff_of_true (Or.inl ?_) rfl
          simp only [udbaseRead, hlines, hline, hscan, husers, bind, Except.bind]
        | some bs => exact rejectsOrResolves_blocks hlines hline hscan hbs

/-- A header without a number, and a friend who is no user : the first is undefined, the
second leaves an entry without a user, which cannot be saved. -/
theorem not_rejectsOrResolves_ghost :
    ¬RejectsOrResolves impLimits "the users:\n".toList ∧
    ¬RejectsOrResolves impLimits "1 users:\nalice\n- ghost\n.\n".toList ∧
    (udbaseRead impLimits "1 users:\nalice\n- ghost\n.\n".toList).toOption.bind udbaseWrite =
      none := by
  refine ⟨not_rejectsOrResolves rfl, ?_, by decide⟩
  rintro (hfail | ⟨db, hread, -, -, ⟨saved, hw⟩, -⟩)
  · cases hfail
  · obtain rfl := Except.ok.inj hread
    cases hw

end Ims

end ClassProjects
