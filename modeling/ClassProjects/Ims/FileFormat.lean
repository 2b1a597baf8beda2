import ClassProjects.Ims.Storage
import Mathlib.Data.List.Nodup

/-!
# The grammar of the database file

A file is a header with the number of users, and for each user a block : the name, one
line for each friend, and a dot. `fileText` writes a list of blocks the way the format
prescribes, with no regard to what the server does.

Every well-formed file is loaded as the database it stands for (`Db.ofBlocks`), and saving
that gives the same text (`udbaseWrite_udbaseRead`). Two things the grammar does not
exclude are outside of the code's types : a name with a NUL, which ends the C string, and
more users than an `unsigned` counts (`file_changed`).
-/

namespace ClassProjects

namespace Ims

open Lines

/-! ## The grammar -/

/-- What may stand behind the name of a friend. -/
inductive FriendForm
  | plain | requested | toanswer
deriving DecidableEq

/-- The words of a friend line behind the name. -/
def FriendForm.suffix : FriendForm → CStr
  | .plain => []
  | .requested => " requested".toList
  | .toanswer => " toanswer".toList

/-- The status a friend line stands for. -/
def FriendForm.status : FriendForm → ImpFriend
  | .plain => .yes
  | .requested => .requested
  | .toanswer => .toanswer

theorem FriendForm.status_ne (form : FriendForm) : form.status ≠ .not := by
  cases form <;> exact nofun

/-- A friend line. -/
structure FriendLine where
  name : CStr
  form : FriendForm
deriving DecidableEq

/-- A user in the file. -/
structure Block where
  name : CStr
  friends : List FriendLine
deriving DecidableEq

/-- A friend line as text. -/
def FriendLine.line (f : FriendLine) : CStr :=
  "- ".toList ++ f.name ++ f.form.suffix

/-- The lines of a block. -/
def Block.lines (b : Block) : List CStr :=
  b.name :: b.friends.map FriendLine.line ++ [['.']]

/-- A file as text. -/
def fileText (blocks : List Block) : List Char :=
  unlines ((Nat.toDigits 10 blocks.length ++ " users:".toList) :: blocks.flatMap Block.lines)

/-- Names are words that fit, no two users have the same, and friends are users. -/
structure WellFormedFile (lim : ImpLimits) (blocks : List Block) : Prop where
  word : ∀ b ∈ blocks, Word b.name
  short : ∀ b ∈ blocks, b.name.length < lim.nameMaxlen
  nodup : (blocks.map Block.name).Nodup
  friends : ∀ b ∈ blocks, ∀ f ∈ b.friends, f.name ∈ blocks.map Block.name

instance (lim : ImpLimits) (blocks : List Block) : Decidable (WellFormedFile lim blocks) :=
  decidable_of_iff ((∀ b ∈ blocks, Word b.name) ∧ (∀ b ∈ blocks, b.name.length < lim.nameMaxlen) ∧
      (blocks.map Block.name).Nodup ∧
      ∀ b ∈ blocks, ∀ f ∈ b.friends, f.name ∈ blocks.map Block.name)
    ⟨fun ⟨hw, hs, hn, hf⟩ => ⟨hw, hs, hn, hf⟩,
      fun h => ⟨h.word, h.short, h.nodup, h.friends⟩⟩

/-! ## The database a file stands for -/

/-- The entry of a friend line. -/
def FriendLine.entry (f : FriendLine) : DbFriend :=
  ⟨some f.name, f.form.status, f.form.status_ne⟩

/-- The user of a block, not active. -/
def Block.user (b : Block) : DbUser :=
  { dbUserInit b.name with flist := b.friends.map FriendLine.entry }

/-- The database of a file. -/
def Db.ofBlocks (blocks : List Block) : Db :=
  ⟨blocks.map Block.user, blocks.length⟩

variable {lim : ImpLimits} {blocks : List Block}

theorem statusWord_status (form : FriendForm) : statusWord form.status = form.suffix := by
  cases form <;> rfl

theorem entryLine_entry (f : FriendLine) : entryLine f.entry = f.line := by
  rw [entryLine, FriendLine.entry, FriendLine.line, statusWord_status]
  rfl

theorem blockLines_user (b : Block) : blockLines b.user = b.lines := by
  simp [blockLines, Block.lines, Block.user, dbUserInit, entryLine_entry]

@[simp] theorem Db.names_ofBlocks : (Db.ofBlocks blocks).names = blocks.map Block.name := by
  simp [Db.names, Db.ofBlocks, Block.user, dbUserInit]

/-- A loaded database has nobody active, so a restart does not change it. -/
theorem Db.restart_ofBlocks : (Db.ofBlocks blocks).restart = Db.ofBlocks blocks := by
  simp [Db.restart, Db.ofBlocks, Block.user, DbUser.rebind, dbUserInit]

/-- A file is its header and the lines of its blocks. -/
theorem fileText_eq (blocks : List Block) : fileText blocks =
    headerLine blocks.length ++ '\n' :: unlines (blocks.flatMap Block.lines) := by
  rw [fileText, unlines, List.flatMap_cons, List.append_assoc]
  rfl

/-- The text of the file is what the database is saved as. -/
theorem udbaseWrite_ofBlocks : udbaseWrite (Db.ofBlocks blocks) = some (fileText blocks) := by
  have hentries : ∀ u ∈ (Db.ofBlocks blocks).users, ∀ e ∈ u.flist, ∃ name,
      e.friend = some name := by
    intro u hu e he
    obtain ⟨b, -, rfl⟩ := List.mem_map.1 hu
    obtain ⟨f, -, rfl⟩ := List.mem_map.1 he
    exact ⟨f.name, rfl⟩
  have hblocks : (blocks.map Block.user).flatMap blockLines = blocks.flatMap Block.lines := by
    rw [List.flatMap_map]
    exact congrArg (List.flatMap · blocks) (funext blockLines_user)
  rw [udbaseWrite_eq hentries, fileText, ← hblocks]
  rfl

theorem savable_ofBlocks (h : WellFormedFile lim blocks) (hnul : ∀ b ∈ blocks, '\x00' ∉ b.name)
    (hlen : blocks.length < 2 ^ 32) : Savable lim (Db.ofBlocks blocks) := by
  have hnames : ∀ name ∈ blocks.map Block.name, FileName name ∧ name.length < lim.nameMaxlen := by
    intro name hname
    obtain ⟨b, hb, rfl⟩ := List.mem_map.1 hname
    exact ⟨⟨h.word b hb, hnul b hb⟩, h.short b hb⟩
  refine ⟨?_, hlen, fun name hname => (hnames name (by simpa using hname)).1, ?_⟩
  · simp [Db.ofBlocks]
  · intro u hu e he
    obtain ⟨b, hb, rfl⟩ := List.mem_map.1 hu
    obtain ⟨f, hf, rfl⟩ := List.mem_map.1 he
    have hname := h.friends b hb f hf
    exact ⟨f.name, by simpa using hname, rfl, (hnames _ hname).2⟩

/-! ## Loading and saving -/

/-- A well-formed file is loaded as the database it stands for. -/
theorem udbaseRead_fileText (h : WellFormedFile lim blocks) (hnul : ∀ b ∈ blocks, '\x00' ∉ b.name)
    (hlen : blocks.length < 2 ^ 32) :
    udbaseRead lim (fileText blocks) = .ok (Db.ofBlocks blocks) := by
  obtain ⟨text, hwrite, hread⟩ := udbaseRead_udbaseWrite (savable_ofBlocks h hnul hlen)
  obtain rfl := Option.some.inj (udbaseWrite_ofBlocks.symm.trans hwrite)
  rw [hread, Db.restart_ofBlocks]

/-- Loading a well-formed file and saving it again gives the same text. -/
theorem udbaseWrite_udbaseRead {text : List Char} (h : WellFormedFile lim blocks)
    (hnul : ∀ b ∈ blocks, '\x00' ∉ b.name) (hlen : blocks.length < 2 ^ 32)
    (htext : text = fileText blocks) :
    ∃ db, udbaseRead lim text = .ok db ∧ udbaseWrite db = some text := by
  subst htext
  exact ⟨_, udbaseRead_fileText h hnul hlen, udbaseWrite_ofBlocks⟩

/-- Three users with awkward names, one of them a friend of a later one. -/
def awkwardBlocks : List Block :=
  [⟨".".toList, [⟨"requested".toList, .plain⟩, ⟨"-".toList, .requested⟩]⟩,
    ⟨"-".toList, [⟨".".toList, .toanswer⟩]⟩,
    ⟨"requested".toList, [⟨".".toList, .plain⟩]⟩]

theorem udbaseWrite_udbaseRead_awkward :
    ∃ db, udbaseRead impLimits (fileText awkwardBlocks) = .ok db ∧
      udbaseWrite db = some (fileText awkwardBlocks) :=
  udbaseWrite_udbaseRead (by decide) (by decide) (by decide) rfl

/-! ## What the types exclude -/

/-- One user whose name has a NUL in the middle. -/
def nulBlocks : List Block :=
  [⟨['a', '\x00', 'b'], []⟩]

/-- As many users as an `unsigned` wraps around at, named by their numbers. -/
def manyBlocks : List Block :=
  (List.range (2 ^ 32)).map fun i => ⟨Nat.toDigits 10 i, []⟩

theorem length_manyBlocks : manyBlocks.length = 2 ^ 32 := by
  rw [manyBlocks, List.length_map, List.length_range]

theorem wellFormed_manyBlocks : WellFormedFile impLimits manyBlocks := by
  have hinj : Function.Injective fun i : ℕ => Nat.toDigits 10 i :=
    Function.LeftInverse.injective (g := fun ds => Nat.ofDigitChars 10 ds 0) fun _ =>
      Nat.ofDigitChars_ten_toDigits
  refine ⟨?_, ?_, ?_, ?_⟩
  · intro b hb
    obtain ⟨i, -, rfl⟩ := List.mem_map.1 hb
    exact ⟨Nat.toDigits_ne_nil, fun c hc =>
      isspace_of_isDigit (Nat.isDigit_of_mem_toDigits (by decide) (by decide) hc)⟩
  · intro b hb
    obtain ⟨i, hi, rfl⟩ := List.mem_map.1 hb
    have hlt : i < 2 ^ 32 := List.mem_range.1 hi
    have hlen : (Nat.toDigits 10 i).length ≤ 10 :=
      (Nat.length_toDigits_le_iff (by decide) (by decide)).2 (by omega)
    exact Nat.lt_of_le_of_lt hlen (by decide)
  · rw [manyBlocks, List.map_map]
    exact List.nodup_range.map hinj
  · intro b hb
    obtain ⟨i, -, rfl⟩ := List.mem_map.1 hb
    exact fun f hf => absurd hf List.not_mem_nil

/-- The header wraps around to no user at all. -/
theorem udbaseRead_manyBlocks : udbaseRead impLimits (fileText manyBlocks) = .ok ⟨[], 0⟩ := by
  have hline : '\n' ∉ headerLine (2 ^ 32) := newline_notMem_headerLine _
  have hscan : scanUnsigned (headerLine (2 ^ 32)) = some 0 := by decide +kernel
  rw [udbaseRead, fileText_eq, length_manyBlocks, lines_append_newline hline]
  simp only [getliner_headerLine, hscan]
  rfl

/-- A file with a NUL in a name, and one with 2 ^ 32 users, are not saved as they were. -/
theorem file_changed :
    (WellFormedFile impLimits nulBlocks ∧ nulBlocks.length < 2 ^ 32 ∧
      ¬ ∃ db, udbaseRead impLimits (fileText nulBlocks) = .ok db ∧
        udbaseWrite db = some (fileText nulBlocks)) ∧
    (WellFormedFile impLimits manyBlocks ∧ (∀ b ∈ manyBlocks, '\x00' ∉ b.name) ∧
      ¬ ∃ db, udbaseRead impLimits (fileText manyBlocks) = .ok db ∧
        udbaseWrite db = some (fileText manyBlocks)) := by
  refine ⟨⟨by decide, by decide, ?_⟩, wellFormed_manyBlocks, ?_, ?_⟩
  · rintro ⟨db, hread, hwrite⟩
    have hdb : udbaseRead impLimits (fileText nulBlocks) =
        .ok ⟨[dbUserInit ['a']], 1⟩ := by decide +kernel
    rw [hdb] at hread
    obtain rfl := Except.ok.inj hread
    exact absurd hwrite (by decide +kernel)
  · intro b hb hnul
    obtain ⟨i, -, rfl⟩ := List.mem_map.1 hb
    exact absurd (Nat.isDigit_of_mem_toDigits (by decide) (by decide) hnul) (by decide)
  · rintro ⟨db, hread, hwrite⟩
    rw [udbaseRead_manyBlocks] at hread
    obtain rfl := Except.ok.inj hread
    -- the saved header has one digit, the file's ten
    have hlen := congrArg (Option.map List.length) hwrite
    have hshort : (udbaseWrite ⟨[], 0⟩).map List.length = some 9 := by decide +kernel
    rw [hshort, Option.map_some] at hlen
    have hheader : (headerLine (2 ^ 32)).length = 17 := by decide +kernel
    rw [fileText_eq, length_manyBlocks, List.length_append, hheader] at hlen
    have := Option.some.inj hlen
    omega

end Ims

end ClassProjects
