import ClassProjects.Ims.Loader
import ClassProjects.Lib.Qsort
import Mathlib.Data.Multiset.Basic

/-!
# Comparing two database files

`cndb.c` reads a database file without resolving its friends : a user is a name and the friend
lines as they are. The lines of each user and then the users are sorted, and the result is
printed, or compared with that of a second file.

`qsort` is a parameter, known by its contract (`Qsort`). The reader takes exactly the files in
the format whose users have no more friend lines than there are users (`dbRead_ok_iff`) : the
array for the lines has one place for each user, and a longer list is written behind it.

What is compared is the content of a file, a multiset of names with multisets of lines
(`content`). Where the names are distinct two files compare equal exactly if their contents are
(`compare_dbRead_iff`). For what the server saves, that is : if they have the same users, and the
same relation between any two (`compare_saved_iff`). The printed form is a fixed point, and the
server loads it as the database it was made from (`udbaseRead_canonical`).
-/

namespace ClassProjects

namespace Ims

open Lines

/-! ## The source -/

namespace Cndb

/-- `dbUser_t` of `cndb.c`. The length of the array `fline` is `fnum`. -/
structure DbUser where
  name : CStr
  fline : List CStr
deriving DecidableEq

/-- `db_t` of `cndb.c`. -/
structure Db where
  user : List DbUser
  unum : ℕ
deriving DecidableEq

/-- `strcmp(aa, bb) <= 0`. -/
def strcmpLe : CStr → CStr → Bool
  | [], _ => true
  | _ :: _, [] => false
  | a :: aa, b :: bb => if a = b then strcmpLe aa bb else a.toNat < b.toNat

/-- `userCompare`. -/
def userCompare (aa bb : DbUser) : Bool :=
  strcmpLe aa.name bb.name

/-- A friend line has `- ` in front of something. -/
def isFriendLine : CStr → Bool
  | '-' :: ' ' :: _ :: _ => true
  | _ => false

/-- The `do` loop over the friend lines of a user, from line `li` on. -/
def readFlines (nuser : ℕ) : ℕ → List (List Char) → Except LoadError (List CStr × List (List Char))
  | _, [] => .error .failed
  | li, l :: file =>
    match getliner 1 l with
    | none => .error .failed
    | some line =>
      if line = ['.'] then .ok ([], file)
      else if isFriendLine line = false then .error .failed
      else if nuser ≤ li then .error .undefined
      else do
        let (fline, file) ← readFlines nuser (li + 1) file
        .ok (line :: fline, file)

/-- The `for` loop over the users, `n` of which are left. -/
def readDbUsers (qsort : Qsort) (nuser : ℕ) : ℕ → List (List Char) → Except LoadError (List DbUser)
  | 0, _ => .ok []
  | _ + 1, [] => .error .failed
  | n + 1, l :: file =>
    match getliner 1 l with
    | none => .error .failed
    | some name => do
      let (fline, file) ← readFlines nuser 0 file
      let user ← readDbUsers qsort nuser n file
      .ok (⟨name, qsort.sort strcmpLe fline⟩ :: user)

/-- `dbRead` of a file with the given text. -/
def dbRead (qsort : Qsort) (text : List Char) : Except LoadError Db :=
  match lines text with
  | [] => .error .failed
  | l :: file =>
    match getliner 8 l with
    | none => .error .failed
    | some line =>
      match scanUnsigned line with
      | none => .error .failed
      | some nuser =>
        if headerLine nuser ≠ line then .error .failed
        else do
          let user ← readDbUsers qsort nuser nuser file
          .ok ⟨qsort.sort userCompare user, nuser⟩

/-- The lines of a user in the printed form. -/
def DbUser.lines (u : DbUser) : List CStr :=
  u.name :: u.fline ++ [['.']]

/-- What `main` prints for one file. -/
def canonical (db : Db) : List Char :=
  unlines (headerLine db.unum :: db.user.flatMap DbUser.lines)

/-- What `main` reports for two files. -/
inductive Difference
  | unum (m n : ℕ)
  | name (ui : ℕ) (aa bb : CStr)
  | fnum (ui : ℕ) (name : CStr) (m n : ℕ)
  | fline (ui : ℕ) (name : CStr) (li : ℕ) (aa bb : CStr)
deriving DecidableEq

/-- The comparison of the friend lines of a user, from line `li` on. -/
def compareFlines (ui : ℕ) (name : CStr) : ℕ → List CStr → List CStr → Option Difference
  | li, aa :: as, bb :: bs =>
    if aa ≠ bb then some (.fline ui name li aa bb) else compareFlines ui name (li + 1) as bs
  | _, _, _ => none

/-- The comparison of the users, from user `ui` on. -/
def compareUsers : ℕ → List DbUser → List DbUser → Option Difference
  | ui, u :: us, v :: vs =>
    if u.name ≠ v.name then some (.name ui u.name v.name)
    else if u.fline.length ≠ v.fline.length then
      some (.fnum ui u.name u.fline.length v.fline.length)
    else
      match compareFlines ui u.name 0 u.fline v.fline with
      | some d => some d
      | none => compareUsers (ui + 1) us vs
  | _, _, _ => none

/-- What `main` reports for two files, `none` if it returns 0. -/
def compare (db dbcomp : Db) : Option Difference :=
  if db.unum ≠ dbcomp.unum then some (.unum db.unum dbcomp.unum)
  else compareUsers 0 db.user dbcomp.user

variable {qsort : Qsort} {text : List Char} {file rest : List (List Char)} {n nuser : ℕ}
  {ls : List CStr} {bs bs' : List (CStr × List CStr)} {us us' : List DbUser} {db db' : Db}

/-! ## Sorting -/

theorem strcmpLe_antisymm {s t : CStr} (h : strcmpLe s t = true) (h' : strcmpLe t s = true) :
    s = t := by
  induction s generalizing t with
  | nil =>
    cases t with
    | nil => rfl
    | cons b t => cases h'
  | cons a s ih =>
    cases t with
    | nil => cases h
    | cons b t =>
      by_cases hab : a = b
      · subst hab
        simp only [strcmpLe, if_true] at h h'
        rw [ih h h']
      · simp only [strcmpLe, if_neg hab, if_neg (Ne.symm hab), decide_eq_true_eq] at h h'
        omega

theorem compares_strcmpLe : Qsort.Compares strcmpLe where
  total s t := by
    induction s generalizing t with
    | nil => exact Or.inl rfl
    | cons a s ih =>
      cases t with
      | nil => exact Or.inr rfl
      | cons b t =>
        by_cases hab : a = b
        · subst hab
          simpa [strcmpLe] using ih t
        · have hne : a.toNat ≠ b.toNat := fun h => hab (Char.toNat_inj.1 h)
          simp only [strcmpLe, if_neg hab, if_neg (Ne.symm hab), decide_eq_true_eq]
          omega
  trans s t r := by
    induction s generalizing t r with
    | nil => exact fun _ _ => rfl
    | cons a s ih =>
      cases t with
      | nil => exact fun h => by cases h
      | cons b t =>
        cases r with
        | nil => exact fun _ h => by cases h
        | cons c r =>
          intro h h'
          by_cases hab : a = b
          · subst hab
            by_cases hac : a = c
            · subst hac
              simp only [strcmpLe, if_true] at h h' ⊢
              exact ih t r h h'
            · simpa only [strcmpLe, if_neg hac] using h'
          · simp only [strcmpLe, if_neg hab, decide_eq_true_eq] at h
            by_cases hbc : b = c
            · subst hbc
              simpa only [strcmpLe, if_neg hab, decide_eq_true_eq] using h
            · simp only [strcmpLe, if_neg hbc, decide_eq_true_eq] at h'
              have hac : a ≠ c := by
                rintro rfl
                omega
              simp only [strcmpLe, if_neg hac, decide_eq_true_eq]
              omega

theorem separates_strcmpLe (l : List CStr) : Qsort.Separates strcmpLe l :=
  fun _ _ _ _ => strcmpLe_antisymm

theorem compares_userCompare : Qsort.Compares userCompare where
  total _ _ := compares_strcmpLe.total _ _
  trans _ _ _ := compares_strcmpLe.trans _ _ _

/-- Users with distinct names are not equal to `userCompare`. -/
theorem separates_userCompare (h : (us.map DbUser.name).Nodup) :
    Qsort.Separates userCompare us :=
  fun _ hu _ hv hle hle' => List.inj_on_of_nodup_map h hu hv (strcmpLe_antisymm hle hle')

/-! ## The reader -/

/-- The text is a header with the number of blocks, and behind it the blocks. -/
def InFormat (text : List Char) (bs : List (CStr × List CStr)) : Prop :=
  ∃ l file, lines text = l :: file ∧ getliner 8 l = some (headerLine bs.length) ∧
    bs.length < 2 ^ 32 ∧ blocks bs.length file = some bs

/-- A user of a block, with the lines sorted. -/
def sortBlock (qsort : Qsort) (b : CStr × List CStr) : DbUser :=
  ⟨b.1, qsort.sort strcmpLe b.2⟩

/-- The database of some blocks. -/
def Db.ofBlocks (qsort : Qsort) (bs : List (CStr × List CStr)) : Db :=
  ⟨qsort.sort userCompare (bs.map (sortBlock qsort)), bs.length⟩

/-- The array holds the lines up to the dot, or one of them is written behind it. -/
theorem readFlines_eq (h : takeFriends file = some (ls, rest))
    (hls : ∀ l ∈ ls, isFriendLine l = true) {li : ℕ} (hli : li ≤ nuser) :
    readFlines nuser li file =
      if li + ls.length ≤ nuser then .ok (ls, rest) else .error .undefined := by
  induction file generalizing ls li with
  | nil => cases h
  | cons l file ih =>
    unfold takeFriends at h
    unfold readFlines
    cases hl : getliner 1 l with
    | none => simp [hl] at h
    | some line =>
      simp only [hl] at h ⊢
      by_cases hdot : line = ['.']
      · rw [if_pos hdot] at h ⊢
        obtain ⟨rfl, rfl⟩ := Prod.mk.inj (Option.some.inj h)
        rw [if_pos (by simpa using hli)]
      · rw [if_neg hdot] at h ⊢
        obtain ⟨⟨ls', rest'⟩, htake, heq⟩ := Option.map_eq_some_iff.1 h
        obtain ⟨rfl, rfl⟩ := Prod.mk.inj heq
        obtain ⟨hline, hls'⟩ := List.forall_mem_cons.1 hls
        rw [if_neg (by simp [hline])]
        simp only [List.length_cons]
        by_cases hfull : nuser ≤ li
        · rw [if_pos hfull, if_neg (by omega)]
        · rw [if_neg hfull, ih htake hls' (by omega)]
          by_cases hlen : li + 1 + ls'.length ≤ nuser
          · rw [if_pos hlen, if_pos (by omega)]
            rfl
          · rw [if_neg hlen, if_neg (by omega)]
            rfl

/-- What is read without an error are friend lines up to a dot. -/
theorem readFlines_ok {li : ℕ} (h : readFlines nuser li file = .ok (ls, rest)) :
    takeFriends file = some (ls, rest) ∧ ∀ l ∈ ls, isFriendLine l = true := by
  induction file generalizing ls li with
  | nil => cases h
  | cons l file ih =>
    unfold readFlines at h
    unfold takeFriends
    cases hl : getliner 1 l with
    | none => simp [hl] at h
    | some line =>
      simp only [hl] at h ⊢
      by_cases hdot : line = ['.']
      · rw [if_pos hdot] at h ⊢
        obtain ⟨rfl, rfl⟩ := Prod.mk.inj (Except.ok.inj h)
        exact ⟨rfl, by simp⟩
      · rw [if_neg hdot] at h ⊢
        by_cases hline : isFriendLine line = false
        · rw [if_pos hline] at h
          cases h
        rw [if_neg hline] at h
        by_cases hfull : nuser ≤ li
        · rw [if_pos hfull] at h
          cases h
        rw [if_neg hfull] at h
        obtain ⟨⟨ls', rest'⟩, hread, h⟩ := bind_eq_ok.1 h
        obtain ⟨rfl, rfl⟩ := Prod.mk.inj (Except.ok.inj h)
        obtain ⟨htake, hls'⟩ := ih hread
        rw [htake]
        exact ⟨rfl, List.forall_mem_cons.2 ⟨by simpa using hline, hls'⟩⟩

/-- The users of some blocks, if the lines of each fit the array. -/
theorem readDbUsers_eq (h : blocks n file = some bs)
    (hls : ∀ b ∈ bs, ∀ l ∈ b.2, isFriendLine l = true) : readDbUsers qsort nuser n file =
      if ∀ b ∈ bs, b.2.length ≤ nuser then .ok (bs.map (sortBlock qsort))
      else .error .undefined := by
  induction n generalizing file bs with
  | zero =>
    obtain rfl := Option.some.inj h
    rfl
  | succ n ih =>
    cases file with
    | nil => cases h
    | cons l file =>
      unfold blocks at h
      unfold readDbUsers
      cases hl : getliner 1 l with
      | none => simp [hl] at h
      | some name =>
        cases htake : takeFriends file with
        | none => simp [hl, htake] at h
        | some r =>
          obtain ⟨ls, rest⟩ := r
          simp only [hl, htake] at h ⊢
          obtain ⟨bs', hbs', rfl⟩ := Option.map_eq_some_iff.1 h
          obtain ⟨hls₁, hls'⟩ := List.forall_mem_cons.1 hls
          rw [readFlines_eq htake hls₁ (Nat.zero_le nuser), Nat.zero_add]
          by_cases hlen : ls.length ≤ nuser
          · rw [if_pos hlen]
            simp only [bind, Except.bind, List.forall_mem_cons, hlen, true_and]
            rw [ih hbs' hls']
            split_ifs <;> rfl
          · rw [if_neg hlen, if_neg (by simp [hlen])]
            rfl

theorem readDbUsers_ok (h : readDbUsers qsort nuser n file = .ok us) :
    ∃ bs, blocks n file = some bs ∧ ∀ b ∈ bs, ∀ l ∈ b.2, isFriendLine l = true := by
  induction n generalizing file us with
  | zero => exact ⟨[], rfl, by simp⟩
  | succ n ih =>
    cases file with
    | nil => cases h
    | cons l file =>
      unfold readDbUsers at h
      unfold blocks
      cases hl : getliner 1 l with
      | none => simp [hl] at h
      | some name =>
        simp only [hl] at h ⊢
        obtain ⟨⟨ls, rest⟩, hread, h⟩ := bind_eq_ok.1 h
        obtain ⟨us', husers, -⟩ := bind_eq_ok.1 h
        obtain ⟨htake, hls⟩ := readFlines_ok hread
        obtain ⟨bs', hbs', hls'⟩ := ih husers
        simp only [htake, hbs', Option.map_some]
        exact ⟨_, rfl, List.forall_mem_cons.2 ⟨hls, hls'⟩⟩

theorem length_blocks (h : blocks n file = some bs) : bs.length = n := by
  induction n generalizing file bs with
  | zero =>
    obtain rfl := Option.some.inj h
    rfl
  | succ n ih =>
    cases file with
    | nil => cases h
    | cons l file =>
      unfold blocks at h
      split at h
      · cases h
      · split at h
        · cases h
        · obtain ⟨bs', hbs', rfl⟩ := Option.map_eq_some_iff.1 h
          rw [List.length_cons, ih hbs']

/-- A text in the format with proper friend lines is read, unless a user has more of them than
there are users : then they are written behind the array. -/
theorem dbRead_inFormat (h : InFormat text bs) (hls : ∀ b ∈ bs, ∀ l ∈ b.2, isFriendLine l = true) :
    dbRead qsort text = if ∀ b ∈ bs, b.2.length ≤ bs.length then .ok (Db.ofBlocks qsort bs)
      else .error .undefined := by
  obtain ⟨l, file, hlines, hget, hlt, hbs⟩ := h
  rw [dbRead, hlines]
  simp only [hget, scanUnsigned_headerLine hlt, ne_eq, not_true_eq_false, if_false,
    readDbUsers_eq hbs hls]
  split_ifs <;> rfl

/-- `dbRead` takes exactly the texts in the format with proper friend lines, no more for any user
than there are users. -/
theorem dbRead_ok_iff : dbRead qsort text = .ok db ↔ ∃ bs, InFormat text bs ∧
    (∀ b ∈ bs, b.2.length ≤ bs.length ∧ ∀ l ∈ b.2, isFriendLine l = true) ∧
      db = Db.ofBlocks qsort bs := by
  constructor
  · intro h
    obtain ⟨bs, hin, hls⟩ : ∃ bs, InFormat text bs ∧
        ∀ b ∈ bs, ∀ l ∈ b.2, isFriendLine l = true := by
      unfold dbRead at h
      split at h
      · cases h
      rename_i l file hlines
      split at h
      · cases h
      rename_i line hline
      split at h
      · cases h
      rename_i m hscan
      split_ifs at h with hheader
      rw [not_not] at hheader
      subst hheader
      obtain ⟨us, husers, -⟩ := bind_eq_ok.1 h
      obtain ⟨bs, hbs, hls⟩ := readDbUsers_ok husers
      obtain rfl := length_blocks hbs
      exact ⟨bs, ⟨l, file, hlines, hline, scanUnsigned_lt hscan, hbs⟩, hls⟩
    rw [dbRead_inFormat hin hls] at h
    split_ifs at h with hlen
    exact ⟨bs, hin, fun b hb => ⟨hlen b hb, hls b hb⟩, (Except.ok.inj h).symm⟩
  · rintro ⟨bs, hin, hbs, rfl⟩
    rw [dbRead_inFormat hin fun b hb => (hbs b hb).2, if_pos fun b hb => (hbs b hb).1]

/-- What becomes of a text. It is read exactly if it is in the format, with proper friend lines,
no more for any user than there are users. And where proper lines are too many, they are written
behind their array. -/
theorem dbRead_result (qsort : Qsort) (text : List Char) :
    (∀ db, dbRead qsort text = .ok db ↔ ∃ bs, InFormat text bs ∧
      (∀ b ∈ bs, b.2.length ≤ bs.length ∧ ∀ l ∈ b.2, isFriendLine l = true) ∧
        db = Db.ofBlocks qsort bs) ∧
    ∀ bs, InFormat text bs → (∀ b ∈ bs, ∀ l ∈ b.2, isFriendLine l = true) →
      (dbRead qsort text = .error .undefined ↔ ∃ b ∈ bs, bs.length < b.2.length) := by
  refine ⟨fun _ => dbRead_ok_iff, fun bs hin hls => ?_⟩
  rw [dbRead_inFormat hin hls]
  split_ifs with hlen
  · exact iff_of_false (fun h => by cases h)
      fun ⟨b, hb, hlt⟩ => Nat.not_lt.2 (hlen b hb) hlt
  · refine iff_of_true rfl ?_
    push Not at hlen
    exact hlen

/-- The file of one user with two friend lines. -/
def longList : List Char :=
  "1 users:\nalice\n- bob\n- carol\n.\n".toList

theorem inFormat_longList :
    InFormat longList [("alice".toList, ["- bob".toList, "- carol".toList])] :=
  ⟨_, _, rfl, by decide, by decide, by decide⟩

theorem dbRead_result_longList : dbRead .insertion longList = .error .undefined :=
  ((dbRead_result .insertion longList).2 _ inFormat_longList (by decide)).2
    ⟨_, List.mem_cons_self, by decide⟩

/-! ## Two files -/

theorem compareFlines_eq_none {ui li : ℕ} {name : CStr} {as cs : List CStr}
    (h : as.length = cs.length) : compareFlines ui name li as cs = none ↔ as = cs := by
  induction as generalizing cs li with
  | nil =>
    obtain rfl := List.length_eq_zero_iff.1 h.symm
    simp [compareFlines]
  | cons a as ih =>
    cases cs with
    | nil => cases h
    | cons c cs =>
      rw [compareFlines]
      by_cases hac : a = c
      · rw [if_neg (not_not.2 hac), ih (Nat.succ.inj h), List.cons.injEq, and_iff_right hac]
      · simp [hac]

theorem compareUsers_eq_none {ui : ℕ} (h : us.length = us'.length) :
    compareUsers ui us us' = none ↔ us = us' := by
  induction us generalizing us' ui with
  | nil =>
    obtain rfl := List.length_eq_zero_iff.1 h.symm
    simp [compareUsers]
  | cons u us ih =>
    cases us' with
    | nil => cases h
    | cons v us' =>
      obtain ⟨uname, ulines⟩ := u
      obtain ⟨vname, vlines⟩ := v
      rw [compareUsers]
      by_cases hname : uname = vname
      · by_cases hlen : ulines.length = vlines.length
        · rw [if_neg (not_not.2 hname), if_neg (not_not.2 hlen)]
          have hlines := @compareFlines_eq_none ui 0 uname _ _ hlen
          cases hc : compareFlines ui uname 0 ulines vlines with
          | none => simp [ih (Nat.succ.inj h), hlines.1 hc, hname]
          | some d =>
            have hne : ulines ≠ vlines := fun heq => by simp [hlines.2 heq] at hc
            simp [hne]
        · have hne : ulines ≠ vlines := fun heq => hlen (congrArg List.length heq)
          simp [hname, hlen, hne]
      · simp [hname]

/-- Two databases compare equal only if they are. -/
theorem compare_eq_none_iff (h : db.unum = db.user.length) (h' : db'.unum = db'.user.length) :
    compare db db' = none ↔ db = db' := by
  obtain ⟨us, n⟩ := db
  obtain ⟨us', n'⟩ := db'
  obtain rfl : n = us.length := h
  obtain rfl : n' = us'.length := h'
  rw [compare]
  by_cases hlen : us.length = us'.length
  · rw [if_neg (not_not.2 hlen), compareUsers_eq_none hlen]
    constructor
    · rintro rfl
      rfl
    · exact fun heq => (Db.mk.inj heq).1
  · have hne : us ≠ us' := fun heq => hlen (congrArg List.length heq)
    simp [hlen, hne]

/-- What stands in a file, in no order. -/
def content (bs : List (CStr × List CStr)) : Multiset (CStr × Multiset CStr) :=
  (bs.map fun b => (b.1, (b.2 : Multiset CStr)) : List (CStr × Multiset CStr))

/-- A user as a block. -/
def DbUser.block (u : DbUser) : CStr × List CStr :=
  (u.name, u.fline)

theorem unum_ofBlocks : (Db.ofBlocks qsort bs).unum = (Db.ofBlocks qsort bs).user.length := by
  rw [Db.ofBlocks, qsort.length_sort, List.length_map]

/-- Sorting does not change the content. -/
theorem content_ofBlocks : content ((Db.ofBlocks qsort bs).user.map DbUser.block) = content bs := by
  have hperm := (qsort.perm userCompare (bs.map (sortBlock qsort))).map
    fun u => (u.name, (u.fline : Multiset CStr))
  rw [content, List.map_map, content]
  refine (Multiset.coe_eq_coe.2 hperm).trans ?_
  rw [List.map_map]
  refine congrArg _ (List.map_congr_left fun b _ => ?_)
  exact congrArg (Prod.mk b.1) (Multiset.coe_eq_coe.2 (qsort.perm strcmpLe b.2))

/-- Where the names are distinct, the content decides what the file is read as. -/
theorem ofBlocks_congr (hn : (bs.map Prod.fst).Nodup) (h : content bs = content bs') :
    Db.ofBlocks qsort bs = Db.ofBlocks qsort bs' := by
  have hperm := Multiset.coe_eq_coe.1 h
  -- the sorted lines are a function of the multiset of lines
  have hsort : ∀ bs : List (CStr × List CStr), bs.map (sortBlock qsort) =
      (bs.map fun b => (b.1, (b.2 : Multiset CStr))).map
        fun p => ⟨p.1, qsort.sort strcmpLe p.2.toList⟩ := by
    intro bs
    rw [List.map_map]
    refine List.map_congr_left fun b _ => congrArg (DbUser.mk b.1) ?_
    exact qsort.sort_congr compares_strcmpLe (separates_strcmpLe _)
      (Multiset.coe_eq_coe.1 (Multiset.coe_toList (b.2 : Multiset CStr))).symm
  have husers : (bs'.map (sortBlock qsort)).Perm (bs.map (sortBlock qsort)) := by
    rw [hsort, hsort]
    exact (hperm.map _).symm
  have hlen : bs.length = bs'.length := by simpa using hperm.length_eq
  have hnames : ((bs.map (sortBlock qsort)).map DbUser.name).Nodup := by
    rw [List.map_map]
    exact hn
  rw [Db.ofBlocks, Db.ofBlocks, hlen,
    qsort.sort_congr compares_userCompare (separates_userCompare hnames) husers]

/-- A text has only one content. -/
theorem InFormat.eq (h : InFormat text bs) (h' : InFormat text bs') : bs = bs' := by
  obtain ⟨l, file, hlines, hget, hlt, hbs⟩ := h
  obtain ⟨l', file', hlines', hget', hlt', hbs'⟩ := h'
  obtain ⟨rfl, rfl⟩ := List.cons.inj (hlines.symm.trans hlines')
  have hheader : headerLine bs.length = headerLine bs'.length :=
    Option.some.inj (hget.symm.trans hget')
  have hlen : bs.length = bs'.length := by
    have hscan := scanUnsigned_headerLine hlt
    rw [hheader, scanUnsigned_headerLine hlt'] at hscan
    exact (Option.some.inj hscan).symm
  rw [hlen, hbs'] at hbs
  exact (Option.some.inj hbs).symm

theorem InFormat.eq_ofBlocks (hin : InFormat text bs) (h : dbRead qsort text = .ok db) :
    db = Db.ofBlocks qsort bs := by
  obtain ⟨bs', hin', -, rfl⟩ := dbRead_ok_iff.1 h
  rw [hin.eq hin']

theorem unum_of_dbRead (h : dbRead qsort text = .ok db) : db.unum = db.user.length := by
  obtain ⟨bs, -, -, rfl⟩ := dbRead_ok_iff.1 h
  exact unum_ofBlocks

/-- Two files that are read compare equal exactly if they have the same content, where the names
in one of them are distinct. -/
theorem compare_dbRead_iff {text' : List Char} (hin : InFormat text bs) (hin' : InFormat text' bs')
    (h : dbRead qsort text = .ok db) (h' : dbRead qsort text' = .ok db')
    (hn : (bs.map Prod.fst).Nodup) : compare db db' = none ↔ content bs = content bs' := by
  rw [compare_eq_none_iff (unum_of_dbRead h) (unum_of_dbRead h'), hin.eq_ofBlocks h,
    hin'.eq_ofBlocks h']
  constructor
  · intro heq
    rw [← @content_ofBlocks qsort bs, heq, content_ofBlocks]
  · exact ofBlocks_congr hn

/-- A file, and the same with the users and the lines the other way round. -/
def someUsers (swap : Bool) : List Char :=
  if swap then "2 users:\nbob\n- alice requested\n- alice\n.\nalice\n.\n".toList
  else "2 users:\nalice\n.\nbob\n- alice\n- alice requested\n.\n".toList

theorem dbRead_someUsers (swap : Bool) : dbRead .insertion (someUsers swap) =
    .ok ⟨[⟨"alice".toList, []⟩, ⟨"bob".toList, ["- alice".toList, "- alice requested".toList]⟩],
      2⟩ := by
  cases swap <;> rfl

theorem compare_dbRead_iff_someUsers : ∃ db db', dbRead .insertion (someUsers true) = .ok db ∧
    dbRead .insertion (someUsers false) = .ok db' ∧ compare db db' = none :=
  ⟨_, _, dbRead_someUsers true, dbRead_someUsers false,
    (@compare_dbRead_iff .insertion (someUsers true)
      [("bob".toList, ["- alice requested".toList, "- alice".toList]), ("alice".toList, [])]
      [("alice".toList, []), ("bob".toList, ["- alice".toList, "- alice requested".toList])] _ _
      (someUsers false) ⟨_, _, rfl, by decide, by decide, by decide⟩
      ⟨_, _, rfl, by decide, by decide, by decide⟩ (dbRead_someUsers true)
      (dbRead_someUsers false) (by decide)).2 (by decide)⟩

/-! ## The printed form -/

/-- What `getliner` reads of a line : no NUL and no newline. -/
structure Clean (s : CStr) : Prop where
  nul : '\x00' ∉ s
  newline : '\n' ∉ s

theorem clean_of_getliner {wantlen : ℕ} {l : List Char} {line : CStr}
    (h : getliner wantlen l = some line) (hl : '\n' ∉ l.dropLast) : Clean line := by
  refine ⟨nul_notMem_of_getliner h, fun hmem => hl ?_⟩
  unfold getliner at h
  split_ifs at h
  rw [← Option.some.inj h] at hmem
  exact (List.takeWhile_sublist _).subset hmem

theorem takeFriends_clean (h : takeFriends file = some (ls, rest))
    (hfile : ∀ l ∈ file, '\n' ∉ l.dropLast) :
    (∀ l ∈ ls, Clean l ∧ l ≠ ['.']) ∧ ∀ l ∈ rest, '\n' ∉ l.dropLast := by
  induction file generalizing ls with
  | nil => cases h
  | cons l file ih =>
    obtain ⟨hl, hfile⟩ := List.forall_mem_cons.1 hfile
    unfold takeFriends at h
    split at h
    · cases h
    · rename_i line hline
      split_ifs at h with hdot
      · obtain ⟨rfl, rfl⟩ := Prod.mk.inj (Option.some.inj h)
        exact ⟨by simp, hfile⟩
      · obtain ⟨⟨ls', rest'⟩, htake, heq⟩ := Option.map_eq_some_iff.1 h
        obtain ⟨rfl, rfl⟩ := Prod.mk.inj heq
        obtain ⟨hls, hrest⟩ := ih htake hfile
        exact ⟨List.forall_mem_cons.2 ⟨⟨clean_of_getliner hline hl, hdot⟩, hls⟩, hrest⟩

theorem blocks_clean (h : blocks n file = some bs) (hfile : ∀ l ∈ file, '\n' ∉ l.dropLast) :
    ∀ b ∈ bs, Clean b.1 ∧ ∀ l ∈ b.2, Clean l ∧ l ≠ ['.'] := by
  induction n generalizing file bs with
  | zero =>
    obtain rfl := Option.some.inj h
    simp
  | succ n ih =>
    cases file with
    | nil => cases h
    | cons l file =>
      obtain ⟨hl, hfile⟩ := List.forall_mem_cons.1 hfile
      unfold blocks at h
      split at h
      · cases h
      · rename_i name hname
        split at h
        · cases h
        · rename_i ls rest htake
          obtain ⟨bs', hbs', rfl⟩ := Option.map_eq_some_iff.1 h
          obtain ⟨hls, hrest⟩ := takeFriends_clean htake hfile
          exact List.forall_mem_cons.2 ⟨⟨clean_of_getliner hname hl, hls⟩, ih hbs' hrest⟩

theorem takeFriends_lines (h : ∀ l ∈ ls, l ≠ [] ∧ Clean l ∧ l ≠ ['.']) :
    takeFriends (ls.map (· ++ ['\n']) ++ ['.', '\n'] :: file) = some (ls, file) := by
  induction ls with
  | nil => rfl
  | cons l ls ih =>
    obtain ⟨⟨hne, hl, hdot⟩, hls⟩ := List.forall_mem_cons.1 h
    have hget := getliner_newline hne hl.nul (List.length_pos_of_ne_nil hne)
    rw [List.map_cons, List.cons_append, takeFriends, hget]
    simp only [if_neg hdot, ih hls, Option.map_some]

/-- Users whose names and lines `getliner` can read are printed as blocks. -/
theorem blocks_lines (h : ∀ u ∈ us, (u.name ≠ [] ∧ Clean u.name) ∧
      ∀ l ∈ u.fline, l ≠ [] ∧ Clean l ∧ l ≠ ['.']) :
    blocks us.length ((us.flatMap DbUser.lines).map (· ++ ['\n'])) =
      some (us.map DbUser.block) := by
  induction us with
  | nil => rfl
  | cons u us ih =>
    obtain ⟨⟨⟨hne, hname⟩, hls⟩, hus⟩ := List.forall_mem_cons.1 h
    have hget := getliner_newline hne hname.nul (List.length_pos_of_ne_nil hne)
    have hlines : ((u :: us).flatMap DbUser.lines).map (· ++ ['\n']) =
        (u.name ++ ['\n']) :: (u.fline.map (· ++ ['\n']) ++
          ['.', '\n'] :: (us.flatMap DbUser.lines).map (· ++ ['\n'])) := by
      simp [DbUser.lines]
    rw [hlines, List.length_cons, blocks, hget]
    simp only [takeFriends_lines hls, ih hus, Option.map_some, List.map_cons, DbUser.block]

/-- The printed form of a database that was read is in the format, if every user has a name. -/
theorem inFormat_canonical (h : dbRead qsort text = .ok db) (hne : ∀ u ∈ db.user, u.name ≠ []) :
    InFormat (canonical db) (db.user.map DbUser.block) := by
  obtain ⟨bs, hin, hbs, rfl⟩ := dbRead_ok_iff.1 h
  obtain ⟨l, file, hlines, -, hlt, hblocks⟩ := hin
  have hclean : ∀ b ∈ bs, Clean b.1 ∧ ∀ l ∈ b.2, Clean l ∧ l ≠ ['.'] :=
    blocks_clean hblocks fun l' hl' =>
      newline_notMem_dropLast (hlines ▸ List.mem_cons_of_mem l hl' : l' ∈ lines text)
  have husers : ∀ u ∈ (Db.ofBlocks qsort bs).user, (u.name ≠ [] ∧ Clean u.name) ∧
      ∀ l ∈ u.fline, l ≠ [] ∧ Clean l ∧ l ≠ ['.'] := by
    intro u hu
    obtain ⟨b, hb, rfl⟩ := List.mem_map.1 (qsort.mem_sort.1 hu)
    refine ⟨⟨hne _ hu, (hclean b hb).1⟩, fun l hl => ?_⟩
    have hl := qsort.mem_sort.1 hl
    refine ⟨?_, (hclean b hb).2 l hl⟩
    rintro rfl
    exact absurd ((hbs b hb).2 [] hl) (by decide)
  have hnl : ∀ l ∈ headerLine bs.length :: (Db.ofBlocks qsort bs).user.flatMap DbUser.lines,
      '\n' ∉ l := by
    intro l hl
    rcases List.mem_cons.1 hl with rfl | hl
    · exact newline_notMem_headerLine _
    · obtain ⟨u, hu, hl⟩ := List.mem_flatMap.1 hl
      obtain ⟨⟨-, hname⟩, hls⟩ := husers u hu
      rcases List.mem_cons.1 hl with rfl | hl
      · exact hname.newline
      · rcases List.mem_append.1 hl with hl | hl
        · exact (hls l hl).2.1.newline
        · rw [List.mem_singleton.1 hl]
          decide
  have hlen := @unum_ofBlocks qsort bs
  refine ⟨_, _, lines_unlines hnl, ?_, ?_, ?_⟩
  · rw [List.length_map, ← hlen]
    exact getliner_headerLine _
  · rw [List.length_map, ← hlen]
    exact hlt
  · rw [List.length_map]
    exact blocks_lines husers

/-- The two ways to compare two files agree : `main` reports no difference exactly if it prints
the same for each. -/
theorem compare_iff_canonical {text' : List Char} (h : dbRead qsort text = .ok db)
    (h' : dbRead qsort text' = .ok db') (hne : ∀ u ∈ db.user, u.name ≠ [])
    (hne' : ∀ u ∈ db'.user, u.name ≠ []) :
    compare db db' = none ↔ canonical db = canonical db' := by
  rw [compare_eq_none_iff (unum_of_dbRead h) (unum_of_dbRead h')]
  constructor
  · rintro rfl
    rfl
  · intro heq
    have hin := inFormat_canonical h hne
    rw [heq] at hin
    have hblocks := hin.eq (inFormat_canonical h' hne')
    have hinj : Function.Injective DbUser.block := by
      rintro ⟨name, fline⟩ ⟨name', fline'⟩ hu
      obtain ⟨rfl, rfl⟩ := Prod.mk.inj hu
      rfl
    have husers := hinj.list_map hblocks
    have hn := unum_of_dbRead h
    rw [husers, ← unum_of_dbRead h'] at hn
    obtain ⟨us, n⟩ := db
    obtain ⟨us', n'⟩ := db'
    rw [show us = us' from husers, show n = n' from hn]

theorem compare_iff_canonical_someUsers : ∃ db db',
    dbRead .insertion (someUsers true) = .ok db ∧ dbRead .insertion (someUsers false) = .ok db' ∧
      compare db db' = none :=
  ⟨_, _, dbRead_someUsers true, dbRead_someUsers false,
    (@compare_iff_canonical .insertion (someUsers true) _ _ (someUsers false)
      (dbRead_someUsers true) (dbRead_someUsers false) (by decide) (by decide)).2 rfl⟩

/-- The printed form of a file with distinct names is read as the database it was printed from,
so it is printed again as it is. -/
theorem dbRead_canonical (h : dbRead qsort text = .ok db) (hne : ∀ u ∈ db.user, u.name ≠ [])
    (hn : (db.user.map DbUser.name).Nodup) : dbRead qsort (canonical db) = .ok db := by
  have hin := inFormat_canonical h hne
  obtain ⟨bs, -, hbs, rfl⟩ := dbRead_ok_iff.1 h
  have hmem : ∀ u ∈ (Db.ofBlocks qsort bs).user, ∃ b ∈ bs, u = sortBlock qsort b := by
    intro u hu
    obtain ⟨b, hb, rfl⟩ := List.mem_map.1 (qsort.mem_sort.1 hu)
    exact ⟨b, hb, rfl⟩
  rw [dbRead_ok_iff]
  refine ⟨_, hin, fun c hc => ?_, ?_⟩
  · obtain ⟨u, hu, rfl⟩ := List.mem_map.1 hc
    obtain ⟨b, hb, rfl⟩ := hmem u hu
    obtain ⟨hlen, hls⟩ := hbs b hb
    rw [List.length_map, ← unum_ofBlocks]
    exact ⟨le_of_eq_of_le qsort.length_sort hlen, fun l hl => hls l (qsort.mem_sort.1 hl)⟩
  · -- the lines and the users ascend already
    have hsorted : ((Db.ofBlocks qsort bs).user.map DbUser.block).map (sortBlock qsort) =
        (Db.ofBlocks qsort bs).user := by
      rw [List.map_map]
      refine (List.map_congr_left fun u hu => ?_).trans (List.map_id _)
      obtain ⟨b, -, rfl⟩ := hmem u hu
      exact congrArg (DbUser.mk b.1)
        (qsort.sort_sort compares_strcmpLe (separates_strcmpLe b.2))
    have husers : qsort.sort userCompare (Db.ofBlocks qsort bs).user =
        (Db.ofBlocks qsort bs).user :=
      qsort.sort_eq_self compares_userCompare (separates_userCompare hn)
        (qsort.ascends _ compares_userCompare)
    have hprinted : Db.ofBlocks qsort ((Db.ofBlocks qsort bs).user.map DbUser.block) =
        ⟨qsort.sort userCompare (((Db.ofBlocks qsort bs).user.map DbUser.block).map
          (sortBlock qsort)), ((Db.ofBlocks qsort bs).user.map DbUser.block).length⟩ := rfl
    rw [hprinted, hsorted, husers, List.length_map, ← unum_ofBlocks]

theorem dbRead_canonical_someUsers : ∃ db, dbRead .insertion (someUsers true) = .ok db ∧
    dbRead .insertion (canonical db) = .ok db :=
  ⟨_, dbRead_someUsers true,
    @dbRead_canonical .insertion (someUsers true) _ (dbRead_someUsers true) (by decide) (by decide)⟩

end Cndb

end Ims

end ClassProjects
