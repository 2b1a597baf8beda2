import ClassProjects.Ims.Arrays
import ClassProjects.Ims.Cndb
import ClassProjects.Ims.FileFormat
import Mathlib.Data.List.Perm.Subperm

/-!
# Comparing what the server saves

`cndb` on the files of `udbaseWrite`. A database that can be saved and loaded again (`Savable`)
and keeps the representation invariant is a file in the format : its users have distinct names,
and no more friends than there are users (`dbRead_udbaseWrite`).

A friend line determines the friend and the status (`entryLine_injective`), so the content of
such a file is the relation of the users (`content_savedBlocks_iff`). Two saved files compare
equal exactly if the databases have the same users and the same relation
(`compare_saved_iff`), whatever order their lists are in and whoever is connected. And the
server may as well load what `cndb` prints : it gets the same users with the same relation
(`udbaseRead_canonical`).
-/

namespace ClassProjects

namespace Ims

open Lines KeyedList

variable {lim : ImpLimits} {qsort : Qsort} {db db₁ db₂ : Db} {u v : DbUser} {e f : DbFriend}
  {l l' : List DbFriend} {n : CStr} {st : ImpFriend}

/-! ## A saved file is in the format -/

/-- A user as `cndb` reads what is saved of him, before the lines are sorted. -/
def savedUser (u : DbUser) : Cndb.DbUser :=
  ⟨u.name, u.flist.map entryLine⟩

/-- The blocks of a saved database. -/
def savedBlocks (db : Db) : List (CStr × List CStr) :=
  (db.users.map savedUser).map Cndb.DbUser.block

/-- The users of a saved database have names the file can hold, and so have their friends. -/
theorem Savable.fileName (h : Savable lim db) (hu : u ∈ db.users) :
    FileName u.name ∧ ∀ e ∈ u.flist, ∃ name, e.friend = some name ∧ FileName name := by
  refine ⟨h.names _ (List.mem_map_of_mem hu), fun e he => ?_⟩
  obtain ⟨name, hname, hfriend, -⟩ := h.entries u hu e he
  exact ⟨name, hfriend, h.names _ hname⟩

/-- Nobody has more friends than there are users. -/
theorem Db.Rep.length_flist (h : db.Rep) (hu : u ∈ db.users) :
    u.flist.length ≤ db.users.length := by
  have hsub : u.flist.map DbFriend.friend ⊆ db.names.map some := by
    intro x hx
    obtain ⟨e, he, rfl⟩ := List.mem_map.1 hx
    obtain ⟨v, hv, hev⟩ := h.resolves u hu e he
    exact List.mem_map.2 ⟨v.name, List.mem_map_of_mem hv, hev.symm⟩
  simpa [Db.names] using ((h.friends u hu).subperm hsub).length_le

theorem isFriendLine_entryLine (hf : e.friend = some n) (hn : FileName n) :
    Cndb.isFriendLine (entryLine e) = true := by
  obtain ⟨c, n, rfl⟩ := List.exists_cons_of_ne_nil hn.ne_nil
  rw [entryLine_eq hf]
  rfl

/-- The lines that are saved of a user. -/
theorem savedUser_lines (us : List DbUser) :
    (us.map savedUser).flatMap Cndb.DbUser.lines = us.flatMap blockLines :=
  List.flatMap_map _ _ _

theorem inFormat_udbaseWrite (h : Savable lim db) {text : List Char}
    (hw : udbaseWrite db = some text) : Cndb.InFormat text (savedBlocks db) := by
  have hwritten : ∀ u ∈ db.users, ∀ e ∈ u.flist, ∃ name, e.friend = some name ∧ FileName name :=
    fun u hu => (h.fileName hu).2
  rw [udbaseWrite_eq fun u hu e he => (hwritten u hu e he).imp fun _ => And.left] at hw
  obtain rfl := Option.some.inj hw
  have hblocks := blocks_fileLines (fun u hu => (h.fileName hu).1) hwritten db.users.length
  rw [if_pos (Nat.le_refl _), List.take_length] at hblocks
  have hlen : (savedBlocks db).length = db.unum := by simp [savedBlocks, h.unum]
  refine ⟨_, _, lines_unlines (newline_notMem_lines (fun u hu => (h.fileName hu).1) hwritten),
    ?_, ?_, ?_⟩
  · rw [hlen]
    exact getliner_headerLine _
  · rw [hlen]
    exact h.unum_lt
  · rw [hlen, h.unum, savedBlocks, List.map_map]
    exact hblocks

/-- `cndb` reads what the server saves. -/
theorem dbRead_udbaseWrite (h : Savable lim db) (hrep : db.Rep) {text : List Char}
    (hw : udbaseWrite db = some text) :
    Cndb.dbRead qsort text = .ok (Cndb.Db.ofBlocks qsort (savedBlocks db)) := by
  refine Cndb.dbRead_ok_iff.2 ⟨_, inFormat_udbaseWrite h hw, fun b hb => ?_, rfl⟩
  obtain ⟨w, hw, rfl⟩ := List.mem_map.1 hb
  obtain ⟨u, hu, rfl⟩ := List.mem_map.1 hw
  refine ⟨?_, fun l hl => ?_⟩
  · simpa [savedUser, savedBlocks, Cndb.DbUser.block] using hrep.length_flist hu
  · obtain ⟨e, he, rfl⟩ := List.mem_map.1 hl
    obtain ⟨name, hf, hn⟩ := (h.fileName hu).2 e he
    exact isFriendLine_entryLine hf hn

/-! ## The content of a saved file -/

/-- A friend line determines the entry. -/
theorem entryLine_injective {m : CStr} (hf : e.friend = some n) (hn : FileName n)
    (hf' : f.friend = some m) (hm : FileName m) (h : entryLine e = entryLine f) : e = f := by
  rw [entryLine_eq hf, entryLine_eq hf'] at h
  have hscan := congrArg scanWord (List.cons.inj h).2
  rw [scanWord_entry hn.toWord, scanWord_entry hm.toWord] at hscan
  obtain ⟨rfl, hword⟩ := Prod.mk.inj hscan
  have hstatus : ∀ s t : ImpFriend, s ≠ .not → t ≠ .not → statusWord s = statusWord t →
      s = t := by
    intro s t hs ht hst
    cases s <;> cases t <;>
      first | rfl | exact absurd rfl hs | exact absurd rfl ht | exact absurd hst (by decide)
  obtain ⟨_, s, hs⟩ := e
  obtain ⟨_, t, ht⟩ := f
  obtain rfl : _ = some n := hf
  obtain rfl : _ = some n := hf'
  obtain rfl := hstatus s t hs ht hword
  rfl

/-- Friend lists with the same lines, up to their order, have the same entries. -/
theorem perm_of_entryLine (hl : ∀ e ∈ l, ∃ name, e.friend = some name ∧ FileName name)
    (hl' : ∀ e ∈ l', ∃ name, e.friend = some name ∧ FileName name)
    (h : (l.map entryLine).Perm (l'.map entryLine)) : ∀ e, e ∈ l ↔ e ∈ l' := by
  have hsub : ∀ {l l' : List DbFriend}, (∀ e ∈ l, ∃ name, e.friend = some name ∧ FileName name) →
      (∀ e ∈ l', ∃ name, e.friend = some name ∧ FileName name) →
      (l.map entryLine).Perm (l'.map entryLine) → ∀ e ∈ l, e ∈ l' := by
    intro l l' hl hl' h e he
    obtain ⟨f, hf, hline⟩ := List.mem_map.1 (h.mem_iff.1 (List.mem_map_of_mem he))
    obtain ⟨n, hen, hn⟩ := hl e he
    obtain ⟨m, hfm, hm⟩ := hl' f hf
    rwa [entryLine_injective hen hn hfm hm hline.symm]
  exact fun e => ⟨hsub hl hl' h e, hsub hl' hl h.symm e⟩

/-- Lists with the same entries say the same, and the other way round. -/
theorem statusOf_congr (hl : (l.map DbFriend.friend).Nodup) (hl' : (l'.map DbFriend.friend).Nodup)
    (h : ∀ e, e ∈ l ↔ e ∈ l') : statusOf l n = statusOf l' n := by
  refine Option.ext fun st => ?_
  constructor
  · intro hst
    obtain ⟨e, he, hn, rfl⟩ := mem_of_statusOf hst
    exact statusOf_of_mem hl' ((h e).1 he) hn
  · intro hst
    obtain ⟨e, he, hn, rfl⟩ := mem_of_statusOf hst
    exact statusOf_of_mem hl ((h e).2 he) hn

theorem mem_of_statusOf_congr (hl : (l.map DbFriend.friend).Nodup)
    (h : ∀ n, statusOf l n = statusOf l' n) (he : e ∈ l) (hf : e.friend = some n) : e ∈ l' := by
  have hst := statusOf_of_mem hl he hf
  rw [h n] at hst
  obtain ⟨⟨friend, s, hs⟩, hf', hfn, hfs⟩ := mem_of_statusOf hst
  obtain ⟨friend', t, ht⟩ := e
  obtain rfl : friend = some n := hfn
  obtain rfl : friend' = some n := hf
  obtain rfl : s = t := hfs
  exact hf'

/-- A user with the friend lines in no order. -/
def bag (u : DbUser) : CStr × Multiset CStr :=
  (u.name, (u.flist.map entryLine : List CStr))

theorem content_savedBlocks (db : Db) :
    Cndb.content (savedBlocks db) = (db.users.map bag : List (CStr × Multiset CStr)) := by
  rw [Cndb.content, savedBlocks, List.map_map, List.map_map]
  rfl

theorem Db.Rep.nodup_bag (h : db.Rep) : (db.users.map bag).Nodup := by
  refine List.Nodup.of_map Prod.fst ?_
  rw [List.map_map]
  exact h.names

theorem Db.Rep.nodup_flist (h : db.Rep) (hu : u ∈ db.users) : u.flist.Nodup :=
  (h.friends u hu).of_map DbFriend.friend

/-- Users with the same lines are related to the same others. -/
theorem rel_of_bag (h₁ : Savable lim db₁) (r₁ : db₁.Rep) (h₂ : Savable lim db₂) (r₂ : db₂.Rep)
    (hu : u ∈ db₁.users) (hv : v ∈ db₂.users) (h : bag u = bag v) :
    db₁.rel u.name n = db₂.rel u.name n := by
  obtain ⟨hname, hlines⟩ := Prod.mk.inj h
  have hmem := perm_of_entryLine (h₁.fileName hu).2 (h₂.fileName hv).2
    (Multiset.coe_eq_coe.1 hlines)
  rw [r₁.rel_eq hu, hname, r₂.rel_eq hv]
  exact statusOf_congr (r₁.friends u hu) (r₂.friends v hv) hmem

/-- Users of one name, related to the same others, have the same lines. -/
theorem bag_of_rel (h₁ : Savable lim db₁) (r₁ : db₁.Rep) (h₂ : Savable lim db₂) (r₂ : db₂.Rep)
    (hu : u ∈ db₁.users) (hv : v ∈ db₂.users) (hname : u.name = v.name)
    (h : ∀ n, db₁.rel u.name n = db₂.rel u.name n) : bag u = bag v := by
  have hst : ∀ n, statusOf u.flist n = statusOf v.flist n := by
    intro n
    have hn := h n
    rwa [r₁.rel_eq hu, hname, r₂.rel_eq hv] at hn
  have hmem : ∀ e, e ∈ u.flist ↔ e ∈ v.flist := by
    refine fun e => ⟨fun he => ?_, fun he => ?_⟩
    · obtain ⟨n, hf, -⟩ := (h₁.fileName hu).2 e he
      exact mem_of_statusOf_congr (r₁.friends u hu) hst he hf
    · obtain ⟨n, hf, -⟩ := (h₂.fileName hv).2 e he
      exact mem_of_statusOf_congr (r₂.friends v hv) (fun n => (hst n).symm) he hf
  have hperm : u.flist.Perm v.flist :=
    (List.perm_ext_iff_of_nodup (r₁.nodup_flist hu) (r₂.nodup_flist hv)).2 hmem
  rw [bag, bag, hname, Multiset.coe_eq_coe.2 (hperm.map entryLine)]

/-- The content of a saved file is the users and their relation. -/
theorem content_savedBlocks_iff (h₁ : Savable lim db₁) (r₁ : db₁.Rep) (h₂ : Savable lim db₂)
    (r₂ : db₂.Rep) : Cndb.content (savedBlocks db₁) = Cndb.content (savedBlocks db₂) ↔
      (∀ n, n ∈ db₁.names ↔ n ∈ db₂.names) ∧ ∀ a b, db₁.rel a b = db₂.rel a b := by
  rw [content_savedBlocks, content_savedBlocks, Multiset.coe_eq_coe,
    List.perm_ext_iff_of_nodup r₁.nodup_bag r₂.nodup_bag]
  constructor
  · intro h
    have hnames : ∀ n, n ∈ db₁.names ↔ n ∈ db₂.names := by
      have hkey : ∀ db : Db, ∀ n, n ∈ db.names ↔ ∃ p ∈ db.users.map bag, p.1 = n := by
        intro db n
        simp [Db.names, bag]
      intro n
      simp only [hkey, h]
    refine ⟨hnames, fun a b => ?_⟩
    by_cases ha : a ∈ db₁.names
    · obtain ⟨u, hu, rfl⟩ := List.mem_map.1 ha
      obtain ⟨v, hv, hbag⟩ := List.mem_map.1 ((h _).1 (List.mem_map_of_mem hu))
      exact rel_of_bag h₁ r₁ h₂ r₂ hu hv hbag.symm
    · have hnone : ∀ {db : Db}, a ∉ db.names → db.rel a b = none := by
        intro db hmem
        refine Db.rel_of_findUser_eq_none (Option.eq_none_iff_forall_not_mem.2 fun u hu => ?_)
        exact hmem (Db.mem_names.2 ⟨u, hu⟩)
      rw [hnone ha, hnone (mt (hnames a).2 ha)]
  · rintro ⟨hnames, hrel⟩ p
    constructor
    · intro hp
      obtain ⟨u, hu, rfl⟩ := List.mem_map.1 hp
      obtain ⟨v, hv, hname⟩ := List.mem_map.1 ((hnames _).1 (List.mem_map_of_mem hu))
      rw [bag_of_rel h₁ r₁ h₂ r₂ hu hv hname.symm (hrel u.name)]
      exact List.mem_map_of_mem hv
    · intro hp
      obtain ⟨v, hv, rfl⟩ := List.mem_map.1 hp
      obtain ⟨u, hu, hname⟩ := List.mem_map.1 ((hnames _).2 (List.mem_map_of_mem hv))
      rw [← bag_of_rel h₁ r₁ h₂ r₂ hu hv hname (hrel u.name)]
      exact List.mem_map_of_mem hu

/-- `cndb` finds no difference between what the server saves of two databases exactly if they
have the same users, and the same relation of any two. -/
theorem compare_saved_iff (h₁ : Savable lim db₁) (r₁ : db₁.Rep) (h₂ : Savable lim db₂)
    (r₂ : db₂.Rep) {text₁ text₂ : List Char} (hw₁ : udbaseWrite db₁ = some text₁)
    (hw₂ : udbaseWrite db₂ = some text₂) : ∃ c₁ c₂, Cndb.dbRead qsort text₁ = .ok c₁ ∧
      Cndb.dbRead qsort text₂ = .ok c₂ ∧ (Cndb.compare c₁ c₂ = none ↔
        (∀ n, n ∈ db₁.names ↔ n ∈ db₂.names) ∧ ∀ a b, db₁.rel a b = db₂.rel a b) := by
  have hread₁ := @dbRead_udbaseWrite lim qsort db₁ h₁ r₁ text₁ hw₁
  have hread₂ := @dbRead_udbaseWrite lim qsort db₂ h₂ r₂ text₂ hw₂
  refine ⟨_, _, hread₁, hread₂, ?_⟩
  have hnames : ((savedBlocks db₁).map Prod.fst).Nodup := by
    rw [savedBlocks, List.map_map, List.map_map]
    exact r₁.names
  rw [← content_savedBlocks_iff h₁ r₁ h₂ r₂,
    Cndb.compare_eq_none_iff Cndb.unum_ofBlocks Cndb.unum_ofBlocks]
  constructor
  · intro heq
    rw [← @Cndb.content_ofBlocks qsort (savedBlocks db₁), heq, Cndb.content_ofBlocks]
  · exact Cndb.ofBlocks_congr hnames

/-- Two users with friend lines of a form, the later name first. -/
def twoBlocks (friends : List FriendForm) : List Block :=
  [⟨"bob".toList, friends.map (FriendLine.mk "alice".toList)⟩,
    ⟨"alice".toList, friends.map (FriendLine.mk "bob".toList)⟩]

/-- Friends and strangers. -/
theorem compare_saved_iff_two : ∃ c₁ c₂,
    Cndb.dbRead .insertion (fileText (twoBlocks [.plain])) = .ok c₁ ∧
      Cndb.dbRead .insertion (fileText (twoBlocks [])) = .ok c₂ ∧ Cndb.compare c₁ c₂ ≠ none := by
  obtain ⟨c₁, c₂, h₁, h₂, hiff⟩ := @compare_saved_iff impLimits .insertion
    (Db.ofBlocks (twoBlocks [.plain])) (Db.ofBlocks (twoBlocks []))
    (savable_ofBlocks (by decide) (by decide) (by decide)) (by decide)
    (savable_ofBlocks (by decide) (by decide) (by decide)) (by decide)
    _ _ udbaseWrite_ofBlocks udbaseWrite_ofBlocks
  refine ⟨c₁, c₂, h₁, h₂, fun hnone => ?_⟩
  exact absurd ((hiff.1 hnone).2 "alice".toList "bob".toList) (by decide)

/-! ## Loading the printed form -/

/-- The friend list with its lines in order. -/
def sortFlist (qsort : Qsort) (u : DbUser) : List DbFriend :=
  qsort.sort (fun e f => Cndb.strcmpLe (entryLine e) (entryLine f)) u.flist

/-- The database with the users and their friend lists in order. -/
def Db.sorted (qsort : Qsort) (db : Db) : Db :=
  ⟨qsort.sort (fun u v => Cndb.strcmpLe u.name v.name) (db.relist (sortFlist qsort)).users,
    db.unum⟩

/-- What `cndb` makes of a saved file is what the server saves of the sorted database. -/
theorem ofBlocks_savedBlocks (h : Savable lim db) (hrep : db.Rep) :
    Cndb.Db.ofBlocks qsort (savedBlocks db) =
      ⟨(db.sorted qsort).users.map savedUser, db.unum⟩ := by
  have hblocks : (savedBlocks db).map (Cndb.sortBlock qsort) =
      (db.relist (sortFlist qsort)).users.map savedUser := by
    rw [savedBlocks, List.map_map, List.map_map, Db.relist, List.map_map]
    refine List.map_congr_left fun u _ => ?_
    exact congrArg (Cndb.DbUser.mk u.name) (qsort.map_sort Cndb.compares_strcmpLe entryLine
      (Cndb.separates_strcmpLe _)).symm
  have hnames : (((db.relist (sortFlist qsort)).users.map savedUser).map
      Cndb.DbUser.name).Nodup := by
    rw [List.map_map]
    have hnodup := hrep.names
    rwa [← Db.names_relist (sortFlist qsort)] at hnodup
  have hlen : (savedBlocks db).length = db.unum := by simp [savedBlocks, h.unum]
  rw [Cndb.Db.ofBlocks, hblocks, hlen, ← qsort.map_sort Cndb.compares_userCompare savedUser
    (Cndb.separates_userCompare hnames)]
  rfl

theorem Db.mem_sorted : v ∈ (db.sorted qsort).users ↔
    ∃ u ∈ db.users, { u with flist := sortFlist qsort u } = v := by
  rw [Db.sorted, qsort.mem_sort, Db.relist, List.mem_map]

theorem Db.names_sorted : (db.sorted qsort).names.Perm db.names := by
  have hperm := (qsort.perm (fun u v => Cndb.strcmpLe u.name v.name)
    (db.relist (sortFlist qsort)).users).map DbUser.name
  rwa [← Db.names, Db.names_relist] at hperm

theorem Savable.sorted (h : Savable lim db) : Savable lim (db.sorted qsort) := by
  have hnames : ∀ n, n ∈ (db.sorted qsort).names ↔ n ∈ db.names :=
    fun n => Db.names_sorted.mem_iff
  refine ⟨?_, h.unum_lt, fun n hn => h.names n ((hnames n).1 hn), fun v hv e he => ?_⟩
  · have hlen := (@Db.names_sorted qsort db).length_eq
    rw [List.length_map, List.length_map] at hlen
    exact h.unum.trans hlen.symm
  · obtain ⟨u, hu, rfl⟩ := Db.mem_sorted.1 hv
    obtain ⟨n, hn, hf, hlen⟩ := h.entries u hu e (qsort.mem_sort.1 he)
    exact ⟨n, (hnames n).2 hn, hf, hlen⟩

/-- With distinct names, the first user of a name is the one. -/
theorem Db.findUser_iff (h : db.names.Nodup) :
    db.findUser n = some u ↔ u ∈ db.users ∧ u.name = n := by
  constructor
  · exact fun hu => ⟨Db.mem_of_findUser hu, Db.name_of_findUser hu⟩
  · rintro ⟨hu, rfl⟩
    exact lookup_of_mem h hu

/-- Sorting keeps the relation. -/
theorem Db.Rep.rel_sorted (h : db.Rep) (a b : CStr) : (db.sorted qsort).rel a b = db.rel a b := by
  have hsorted : (db.sorted qsort).names.Nodup := Db.names_sorted.nodup_iff.2 h.names
  cases ha : db.findUser a with
  | none =>
    rw [Db.rel_of_findUser_eq_none ha]
    refine Db.rel_of_findUser_eq_none (Option.eq_none_iff_forall_not_mem.2 fun v hv => ?_)
    have hmem := Db.names_sorted.mem_iff.1 (Db.mem_names.2 ⟨v, hv⟩)
    obtain ⟨u, hu⟩ := Db.mem_names.1 hmem
    rw [ha] at hu
    cases hu
  | some u =>
    have hu := Db.mem_of_findUser ha
    have hname : u.name = a := Db.name_of_findUser ha
    have hv : (db.sorted qsort).findUser a = some { u with flist := sortFlist qsort u } :=
      (Db.findUser_iff hsorted).2 ⟨Db.mem_sorted.2 ⟨u, hu, rfl⟩, hname⟩
    rw [Db.rel, hv, Db.rel, ha, Option.bind_some, Option.bind_some]
    refine statusOf_congr ?_ (h.friends u hu) fun e => qsort.mem_sort
    exact ((qsort.perm _ u.flist).map DbFriend.friend).nodup_iff.2 (h.friends u hu)

theorem Db.rel_restart (a b : CStr) : db.restart.rel a b = db.rel a b := by
  have hfind : db.restart.findUser a = (db.findUser a).map fun u => u.rebind .not (-1) := by
    rw [Db.findUser, Db.restart, List.find?_map]
    rfl
  rw [Db.rel, hfind, Db.rel]
  cases db.findUser a <;> rfl

/-- The server loads what `cndb` prints of a saved file as it loads the file : the users are the
same, nobody is connected, and any two are related as they were. -/
theorem udbaseRead_canonical (h : Savable lim db) (hrep : db.Rep) {text : List Char}
    (hw : udbaseWrite db = some text) : ∃ c db', Cndb.dbRead qsort text = .ok c ∧
      udbaseRead lim (Cndb.canonical c) = .ok db' ∧ db'.names.Perm db.names ∧
      db'.unum = db.unum ∧ (∀ a b, db'.rel a b = db.rel a b) ∧
      ∀ u ∈ db'.users, u.active = .not ∧ u.connfd = -1 := by
  have hsaved := @Savable.sorted lim qsort db h
  have hentries : ∀ u ∈ (db.sorted qsort).users, ∀ e ∈ u.flist, ∃ name, e.friend = some name :=
    fun u hu e he => ((hsaved.fileName hu).2 e he).imp fun _ => And.left
  obtain ⟨saved, hwrite, hread⟩ := udbaseRead_udbaseWrite hsaved
  rw [udbaseWrite_eq hentries] at hwrite
  obtain rfl := Option.some.inj hwrite
  refine ⟨_, (db.sorted qsort).restart, dbRead_udbaseWrite h hrep hw, ?_, ?_, rfl, ?_, ?_⟩
  · rw [ofBlocks_savedBlocks h hrep, Cndb.canonical, savedUser_lines]
    exact hread
  · have hnames : (db.sorted qsort).restart.names = (db.sorted qsort).names := by
      simp [Db.restart, Db.names, DbUser.rebind, Function.comp_def]
    rw [hnames]
    exact Db.names_sorted
  · exact fun a b => (Db.rel_restart a b).trans (hrep.rel_sorted a b)
  · intro u hu
    obtain ⟨v, -, rfl⟩ := List.mem_map.1 hu
    exact ⟨rfl, rfl⟩

theorem udbaseRead_canonical_two : ∃ c db',
    Cndb.dbRead .insertion (fileText (twoBlocks [.plain])) = .ok c ∧
      udbaseRead impLimits (Cndb.canonical c) = .ok db' ∧
      db'.rel "alice".toList "bob".toList = some .yes := by
  obtain ⟨c, db', hread, hload, -, -, hrel, -⟩ := @udbaseRead_canonical impLimits .insertion
    (Db.ofBlocks (twoBlocks [.plain])) (savable_ofBlocks (by decide) (by decide) (by decide))
    (by decide) _ udbaseWrite_ofBlocks
  exact ⟨c, db', hread, hload, (hrel _ _).trans (by decide)⟩

end Ims

end ClassProjects
