import ClassProjects.Ims.HandlerSpec
import ClassProjects.Lib.NodeList
import ClassProjects.Lib.TwoPhase

/-!
# The friend handlers and their pointers

`friendRequest` and `friendRemove` search the list of the requested user before
`sem_wait`, and the section after it edits that list through the `fcur` and `fprev` of
the search. Here the friend nodes have addresses. The two halves of a handler are
`FriendOp.look`, up to `sem_wait`, and `FriendOp.enter`, from there on.

A section that goes through a node of no list is wrong (`none`) : as long as every earlier
section met its nodes, such a node was freed by a removal.
-/

namespace ClassProjects

namespace Ims

open KeyedList
open TwoPhase (Look)

/-! ## Friend lists in memory -/

/-- `dbUser_t` without its list. -/
structure UserHead where
  name : CStr
  active : ImpActive
  connfd : ℤ

/-- `db`, with an address for each friend node. No two users have one name, so a user
node is known by it. -/
structure FriendHeap where
  users : List UserHead
  unum : ℕ
  /-- The nodes of the list of the user with the name. -/
  flist : CStr → List (DbFriend × ℕ)
  /-- The next address `malloc` returns. -/
  next : ℕ

namespace FriendHeap

/-- The database without the addresses. -/
def erase (h : FriendHeap) : Db :=
  ⟨h.users.map fun u => ⟨u.name, u.active, u.connfd, (h.flist u.name).map Prod.fst⟩, h.unum⟩

/-- The nodes of a database, each list at the first addresses. -/
def start (db : Db) : FriendHeap where
  users := db.users.map fun u => ⟨u.name, u.active, u.connfd⟩
  unum := db.unum
  flist n := (((db.findUser n).map DbUser.flist).getD []).zipIdx
  next := (db.users.flatMap DbUser.flist).length

/-- Assign to the list of a user. -/
def setFlist (h : FriendHeap) (n : CStr) (l : List (DbFriend × ℕ)) : FriendHeap :=
  { h with flist := Function.update h.flist n l }

end FriendHeap

/-- The search of `scanFriend`, over nodes. -/
def scanNodes (name : CStr) :
    List (DbFriend × ℕ) → Option (List (DbFriend × ℕ) × List (DbFriend × ℕ))
  | [] => some ([], [])
  | fcur :: rest =>
    match fcur.1.friend with
    | none => none
    | some n =>
      if n = name then some ([], fcur :: rest)
      else (scanNodes name rest).map fun r => (fcur :: r.1, r.2)

/-- `fcur->status = IMP_FRIEND_YES`. -/
def acceptNode (fcur : DbFriend × ℕ) : DbFriend × ℕ :=
  (fcur.1.setStatus .yes yes_ne, fcur.2)

/-! ## The handlers -/

/-- A friend operation and the connection it came from. -/
inductive FriendOp
  | request (userName : CStr) (connfd : ℕ)
  | remove (userName : CStr) (connfd : ℕ)

/-- What a handler has in its variables at `sem_wait`. -/
inductive FriendPlan
  | place (requester requested : CStr) (fprev : Option ℕ)
  | accept (requester requested : CStr) (fcur : ℕ)
  | unlink (requester requested : CStr) (fprev : Option ℕ) (fcur : ℕ)

/-- `friendRequest` up to `sem_wait`. -/
def friendRequestLook (userName : CStr) (connfd : ℕ) (h : FriendHeap) :
    Option (Look Sent FriendPlan) :=
  match h.erase.findConn connfd with
  | none => some (.answer [⟨connfd, .error .clientNotBound none⟩])
  | some requester =>
    if requester.name = userName then some (.answer [⟨connfd, .error .badCommand none⟩])
    else
      match h.erase.findUser userName with
      | none => some (.answer [⟨connfd, .error .userDoesNotExist none⟩])
      | some requested =>
        (scanNodes requester.name (h.flist requested.name)).map fun
          | (_, fcur :: _) =>
            match fcur.1.status with
            | .toanswer => .answer [⟨connfd, .error .requestedAlready (some userName)⟩]
            | .requested => .enter (.accept requester.name requested.name fcur.2)
            | _ => .answer [⟨connfd, .error .friendAlready (some requested.name)⟩]
          | (before, []) =>
            .enter (.place requester.name requested.name (NodeList.last before))

/-- `friendRemove` up to `sem_wait`. -/
def friendRemoveLook (userName : CStr) (connfd : ℕ) (h : FriendHeap) :
    Option (Look Sent FriendPlan) :=
  match h.erase.findConn connfd with
  | none => some (.answer [⟨connfd, .error .clientNotBound none⟩])
  | some requester =>
    if requester.name = userName then some (.answer [⟨connfd, .error .badCommand none⟩])
    else
      match h.erase.findUser userName with
      | none => some (.answer [⟨connfd, .error .userDoesNotExist none⟩])
      | some requested =>
        (scanNodes requester.name (h.flist requested.name)).map fun
          | (before, fcur :: _) =>
            .enter (.unlink requester.name requested.name (NodeList.last before) fcur.2)
          | (_, []) => .answer [⟨connfd, .error .notFriend (some requested.name)⟩]

/-- The section that places a request. -/
def placeNodes (requester requested : CStr) (fprev : Option ℕ) (h : FriendHeap) :
    Option FriendHeap :=
  (NodeList.link fprev (h.erase.dbFriendInit requester .toanswer toanswer_ne, h.next)
    (h.flist requested)).map fun l =>
      let h' := h.setFlist requested l
      { h'.setFlist requester (h'.flist requester ++
          [(h'.erase.dbFriendInit requested .requested requested_ne, h.next + 1)]) with
        next := h.next + 2 }

/-- The section that makes two users friends. -/
def acceptNodes (requester requested : CStr) (fcur : ℕ) (h : FriendHeap) : Option FriendHeap :=
  if fcur ∈ (h.flist requested).map Prod.snd then
    let h' := h.setFlist requested (updateKey Prod.snd fcur acceptNode (h.flist requested))
    match scanNodes requested (h'.flist requester) with
    | some (rbefore, rfcur :: rrest) =>
      some (h'.setFlist requester (rbefore ++ acceptNode rfcur :: rrest))
    | _ => none
  else none

/-- The section that unlinks two users from each other's list. -/
def unlinkNodes (requester requested : CStr) (fprev : Option ℕ) (fcur : ℕ) (h : FriendHeap) :
    Option FriendHeap :=
  (NodeList.unlink fprev fcur (h.flist requested)).bind fun l =>
    let h' := h.setFlist requested l
    match scanNodes requested (h'.flist requester) with
    | some (rbefore, _ :: rrest) => some (h'.setFlist requester (rbefore ++ rrest))
    | _ => none

/-- The status updates after a section, made of the two users. -/
def tellUsers (connfd : ℕ) (requester requested : CStr) (toRequester toRequested : DbUser → ImpMsg)
    (h : FriendHeap) : Option (FriendHeap × List Sent) := do
  let s ← h.erase.findUser requester
  let r ← h.erase.findUser requested
  some (h, tellBoth connfd r (toRequester r) (toRequested s))

namespace FriendOp

/-- The name the client asked for. -/
def userName : FriendOp → CStr
  | request userName _ => userName
  | remove userName _ => userName

/-- The connection of the client. -/
def connfd : FriendOp → ℕ
  | request _ connfd => connfd
  | remove _ connfd => connfd

/-- The message of the client. -/
def event : FriendOp → Event
  | request userName connfd => .msg connfd (some (.op (.friendRequest userName)))
  | remove userName connfd => .msg connfd (some (.op (.friendRemove userName)))

/-- A handler up to `sem_wait`. -/
def look : FriendOp → FriendHeap → Option (Look Sent FriendPlan)
  | request userName connfd => friendRequestLook userName connfd
  | remove userName connfd => friendRemoveLook userName connfd

/-- A handler from `sem_wait` on. -/
def enter (op : FriendOp) : FriendPlan → FriendHeap → Option (FriendHeap × List Sent)
  | .place s r fprev, h =>
    (placeNodes s r fprev h).bind <| tellUsers op.connfd s r
      (fun r => .status r.name .requested .not) fun s => .status s.name .toanswer .not
  | .accept s r fcur, h =>
    (acceptNodes s r fcur h).bind <| tellUsers op.connfd s r
      (fun r => .status r.name .yes r.active) fun s => .status s.name .yes s.active
  | .unlink s r fprev fcur, h =>
    (unlinkNodes s r fprev fcur h).bind <| tellUsers op.connfd s r
      (fun r => .status r.name .not .not) fun s => .status s.name .not .not

end FriendOp

/-! ## The database of a heap -/

variable {h h' : FriendHeap} {db : Db} {u s r : DbUser} {n m : CStr} {l : List (DbFriend × ℕ)}
  {st : ImpFriend}

theorem FriendHeap.findUser_erase : h.erase.findUser n =
    (h.users.find? fun u => u.name = n).map
      fun u => ⟨u.name, u.active, u.connfd, (h.flist u.name).map Prod.fst⟩ := by
  rw [Db.findUser, FriendHeap.erase, List.find?_map]
  rfl

/-- The list of a user is the list under his name. -/
theorem FriendHeap.flist_of_findUser (hu : h.erase.findUser n = some u) :
    u.flist = (h.flist n).map Prod.fst := by
  obtain rfl := Db.name_of_findUser hu
  rw [FriendHeap.findUser_erase] at hu
  obtain ⟨x, -, rfl⟩ := Option.map_eq_some_iff.1 hu
  rfl

theorem FriendHeap.flist_of_findConn {connfd : ℕ} (hu : h.erase.findConn connfd = some u) :
    u.flist = (h.flist u.name).map Prod.fst := by
  simp only [Db.findConn, FriendHeap.erase, List.find?_map, Option.map_eq_some_iff] at hu
  obtain ⟨x, -, rfl⟩ := hu
  rfl

theorem FriendHeap.erase_setFlist : (h.setFlist n l).erase =
    h.erase.relist fun u => if u.name = n then l.map Prod.fst else u.flist := by
  simp only [FriendHeap.erase, FriendHeap.setFlist, Db.relist, List.map_map]
  congr 1
  refine List.map_congr_left fun u _ => ?_
  by_cases hu : u.name = n <;> simp [hu]

theorem FriendHeap.flist_setFlist_of_ne (hnm : m ≠ n) : (h.setFlist n l).flist m = h.flist m :=
  Function.update_of_ne hnm ..

/-- The two assignments of a section are an edit of the pair. -/
theorem FriendHeap.erase_setFlist_setFlist (hnm : n ≠ m) (ln lm : List (DbFriend × ℕ)) :
    ((h.setFlist n ln).setFlist m lm).erase =
      h.erase.setPair n m (ln.map Prod.fst) (lm.map Prod.fst) := by
  simp only [FriendHeap.erase, FriendHeap.setFlist, Db.setPair, Db.relist, List.map_map]
  congr 1
  refine List.map_congr_left fun u _ => ?_
  by_cases hm : u.name = m
  · simp [hm, hnm.symm]
  · by_cases hn : u.name = n <;> simp [hn, hm, hnm]

theorem FriendHeap.erase_start (hdb : db.Rep) : (FriendHeap.start db).erase = db := by
  have hu : ∀ u ∈ db.users, (⟨u.name, u.active, u.connfd,
      ((FriendHeap.start db).flist u.name).map Prod.fst⟩ : DbUser) = u := by
    intro u hu
    simp [FriendHeap.start, hdb.findUser_of_mem hu, List.zipIdx_map_fst]
  have hmap := List.map_congr_left hu
  rw [List.map_id'] at hmap
  rw [FriendHeap.erase, FriendHeap.start, List.map_map]
  exact congrArg (fun l => (⟨l, db.unum⟩ : Db)) hmap

/-! ## The invariant of a heap -/

/-- The database has the representation invariant, and a list has its nodes in the order
of their allocation. -/
structure FriendHeap.Valid (h : FriendHeap) : Prop where
  rep : h.erase.Rep
  sorted : ∀ n, ((h.flist n).map Prod.snd).Pairwise (· < ·)
  lt_next : ∀ n, ∀ y ∈ h.flist n, y.2 < h.next

theorem FriendHeap.valid_start (hdb : db.Rep) : (FriendHeap.start db).Valid where
  rep := by rwa [FriendHeap.erase_start hdb]
  sorted n := by
    rw [FriendHeap.start, List.zipIdx_map_snd]
    exact List.pairwise_lt_range'
  lt_next n y hy := by
    have hlt := List.snd_lt_of_mem_zipIdx hy
    cases hu : db.findUser n with
    | none => simp [hu] at hlt
    | some u =>
      have hle : u.flist.length ≤ (db.users.flatMap DbUser.flist).length := by
        obtain ⟨b, t, hbt⟩ := List.append_of_mem (Db.mem_of_findUser hu)
        simp only [hbt, List.flatMap_append, List.flatMap_cons, List.length_append]
        omega
      simp only [hu, Option.map_some, Option.getD_some] at hlt
      simp only [FriendHeap.start]
      omega

/-- The nodes of `l'` have addresses from `a` to `b` or are nodes of `l`, with the same
friend. -/
structure Follows (a b : ℕ) (l l' : List (DbFriend × ℕ)) : Prop where
  sorted : (l'.map Prod.snd).Pairwise (· < ·)
  lt_next : ∀ y ∈ l', y.2 < b
  old : ∀ y ∈ l', a ≤ y.2 ∨ ∃ x ∈ l, x.2 = y.2 ∧ x.1.friend = y.1.friend

/-- What a step leaves of a heap. -/
structure Evolves (h h' : FriendHeap) : Prop where
  users : h'.users = h.users
  next : h.next ≤ h'.next
  nodes : ∀ n, Follows h.next h'.next (h.flist n) (h'.flist n)

variable {a : ℕ} {x : DbFriend × ℕ} {b t : List (DbFriend × ℕ)}

theorem sorted_split (hl : ((b ++ x :: t).map Prod.snd).Pairwise (· < ·)) :
    (∀ y ∈ b, y.2 < x.2) ∧ (∀ y ∈ t, x.2 < y.2) ∧ ((b ++ t).map Prod.snd).Pairwise (· < ·) := by
  have hsub : ((b ++ t).map Prod.snd).Sublist ((b ++ x :: t).map Prod.snd) :=
    ((List.sublist_cons_self x t).append_left b).map Prod.snd
  refine ⟨fun y hy => ?_, fun y hy => ?_, hl.sublist hsub⟩
  · rw [List.map_append, List.pairwise_append] at hl
    exact hl.2.2 _ (List.mem_map_of_mem hy) _ (List.mem_map_of_mem List.mem_cons_self)
  · rw [List.map_append, List.pairwise_append, List.map_cons, List.pairwise_cons] at hl
    exact hl.2.1.1 _ (List.mem_map_of_mem hy)

theorem follows_refl (hl : (l.map Prod.snd).Pairwise (· < ·)) (hlt : ∀ y ∈ l, y.2 < a) :
    Follows a a l l :=
  ⟨hl, hlt, fun y hy => Or.inr ⟨y, hy, rfl, rfl⟩⟩

theorem Follows.mono {c : ℕ} {l' : List (DbFriend × ℕ)} (hf : Follows a a l l') (hc : a ≤ c) :
    Follows a c l l' :=
  ⟨hf.sorted, fun y hy => (hf.lt_next y hy).trans_le hc, hf.old⟩

theorem follows_append {c : ℕ} (hl : (l.map Prod.snd).Pairwise (· < ·)) (hlt : ∀ y ∈ l, y.2 < a)
    (hax : a ≤ x.2) (hxc : x.2 < c) : Follows a c l (l ++ [x]) where
  sorted := by
    rw [List.map_append, List.pairwise_append]
    refine ⟨hl, by simp, fun i hi j hj => ?_⟩
    obtain ⟨y, hy, rfl⟩ := List.mem_map.1 hi
    obtain rfl : j = x.2 := by simpa using hj
    exact (hlt y hy).trans_le hax
  lt_next y hy := by
    rcases List.mem_append.1 hy with hy | hy
    · exact ((hlt y hy).trans_le hax).trans hxc
    · rwa [List.mem_singleton.1 hy]
  old y hy := by
    rcases List.mem_append.1 hy with hy | hy
    · exact Or.inr ⟨y, hy, rfl, rfl⟩
    · exact Or.inl (by rwa [List.mem_singleton.1 hy])

theorem follows_accept (hl : ((b ++ x :: t).map Prod.snd).Pairwise (· < ·))
    (hlt : ∀ y ∈ b ++ x :: t, y.2 < a) : Follows a a (b ++ x :: t) (b ++ acceptNode x :: t) where
  sorted := by simpa [acceptNode] using hl
  lt_next y hy := by
    rcases List.mem_append.1 hy with hy | hy
    · exact hlt y (List.mem_append_left _ hy)
    · rcases List.mem_cons.1 hy with rfl | hy
      · exact hlt x (by simp)
      · exact hlt y (by simp [hy])
  old y hy := by
    rcases List.mem_append.1 hy with hy | hy
    · exact Or.inr ⟨y, List.mem_append_left _ hy, rfl, rfl⟩
    · rcases List.mem_cons.1 hy with rfl | hy
      · exact Or.inr ⟨x, by simp, rfl, rfl⟩
      · exact Or.inr ⟨y, by simp [hy], rfl, rfl⟩

theorem follows_drop (hl : ((b ++ x :: t).map Prod.snd).Pairwise (· < ·))
    (hlt : ∀ y ∈ b ++ x :: t, y.2 < a) : Follows a a (b ++ x :: t) (b ++ t) where
  sorted := (sorted_split hl).2.2
  lt_next y hy := hlt y (by simp at hy ⊢; tauto)
  old y hy := Or.inr ⟨y, by simp at hy ⊢; tauto, rfl, rfl⟩

/-- New lists for two users, as a section leaves them. -/
theorem FriendHeap.Valid.setPair (hv : h.Valid) {k : ℕ} {lr ls : List (DbFriend × ℕ)}
    (hk : h.next ≤ k) (hr : Follows h.next k (h.flist n) lr) (hs : Follows h.next k (h.flist m) ls)
    (hrep : ((h.setFlist n lr).setFlist m ls).erase.Rep) :
    FriendHeap.Valid { (h.setFlist n lr).setFlist m ls with next := k } ∧
      Evolves h { (h.setFlist n lr).setFlist m ls with next := k } := by
  have hnodes : ∀ o, Follows h.next k (h.flist o) (((h.setFlist n lr).setFlist m ls).flist o) := by
    intro o
    by_cases hm : o = m
    · subst hm
      simpa [FriendHeap.setFlist] using hs
    · by_cases hn : o = n
      · subst hn
        simpa [FriendHeap.setFlist, hm] using hr
      · simpa [FriendHeap.setFlist, hm, hn] using
          (follows_refl (hv.sorted o) (hv.lt_next o)).mono hk
  exact ⟨⟨hrep, fun o => (hnodes o).sorted, fun o => (hnodes o).lt_next⟩, ⟨rfl, hk, hnodes⟩⟩

/-! ## The search -/

theorem scanNodes_split (hb : ∀ y ∈ b, ∃ m, y.1.friend = some m ∧ m ≠ n)
    (hx : x.1.friend = some n) : scanNodes n (b ++ x :: t) = some (b, x :: t) := by
  induction b with
  | nil => simp [scanNodes, hx]
  | cons y b ih =>
    obtain ⟨m, hm, hne⟩ := hb y List.mem_cons_self
    simp [scanNodes, hm, hne, ih fun z hz => hb z (List.mem_cons_of_mem _ hz)]

theorem scanNodes_none (hl : ∀ y ∈ l, ∃ m, y.1.friend = some m ∧ m ≠ n) :
    scanNodes n l = some (l, []) := by
  induction l with
  | nil => rfl
  | cons y l ih =>
    obtain ⟨m, hm, hne⟩ := hl y List.mem_cons_self
    simp [scanNodes, hm, hne, ih fun z hz => hl z (List.mem_cons_of_mem _ hz)]

/-- A search for someone who is not in the list passes all of it. -/
theorem FriendHeap.Valid.scan_none (hv : h.Valid) (hr : h.erase.findUser r.name = some r)
    (hn : statusOf r.flist n = none) :
    scanNodes n (h.flist r.name) = some (h.flist r.name, []) := by
  refine scanNodes_none fun y hy => ?_
  have hmem : y.1 ∈ r.flist := by
    rw [FriendHeap.flist_of_findUser hr]
    exact List.mem_map_of_mem hy
  obtain ⟨v, -, hyv⟩ := hv.rep.resolves r (Db.mem_of_findUser hr) y.1 hmem
  exact ⟨v.name, hyv, fun hvn => statusOf_eq_none.1 hn y.1 hmem (hvn ▸ hyv)⟩

/-- A search stops at the node for the name, and the edits through that node are the edits
of the name's entry. -/
theorem FriendHeap.Valid.scan_split (hv : h.Valid) (hr : h.erase.findUser r.name = some r)
    (hl : h.flist r.name = b ++ x :: t) (hx : x.1.friend = some n) :
    scanNodes n (h.flist r.name) = some (b, x :: t) ∧
      (b ++ acceptNode x :: t).map Prod.fst =
        updateKey DbFriend.friend (some n) (·.setStatus .yes yes_ne) r.flist ∧
      (b ++ t).map Prod.fst = dropKey DbFriend.friend (some n) r.flist := by
  have hfl : r.flist = b.map Prod.fst ++ x.1 :: t.map Prod.fst := by
    rw [FriendHeap.flist_of_findUser hr, hl, List.map_append, List.map_cons]
  have hnd := hv.rep.friends r (Db.mem_of_findUser hr)
  rw [hfl, List.map_append, List.map_cons, List.nodup_middle, List.nodup_cons,
    List.mem_append] at hnd
  have hb : ∀ e ∈ b.map Prod.fst, e.friend ≠ some n := fun e he hen =>
    hnd.1 (Or.inl (List.mem_map.2 ⟨e, he, hen.trans hx.symm⟩))
  have ht : ∀ e ∈ t.map Prod.fst, e.friend ≠ some n := fun e he hen =>
    hnd.1 (Or.inr (List.mem_map.2 ⟨e, he, hen.trans hx.symm⟩))
  refine ⟨?_, ?_, ?_⟩
  · rw [hl]
    refine scanNodes_split (fun y hy => ?_) hx
    have hy' : y.1 ∈ b.map Prod.fst := List.mem_map_of_mem hy
    obtain ⟨v, -, hyv⟩ := hv.rep.resolves r (Db.mem_of_findUser hr) y.1
      (by rw [hfl]; exact List.mem_append_left _ hy')
    exact ⟨v.name, hyv, fun hvn => hb y.1 hy' (hvn ▸ hyv)⟩
  · rw [hfl, updateKey_split hb hx ht, List.map_append, List.map_cons]
    rfl
  · rw [hfl, dropKey_split hb hx ht, List.map_append]

/-- The node of an entry. -/
theorem FriendHeap.split_of_statusOf (hr : h.erase.findUser r.name = some r)
    (hn : statusOf r.flist n = some st) : ∃ b x t, h.flist r.name = b ++ x :: t ∧
      x.1.friend = some n ∧ x.1.status = st := by
  obtain ⟨e, he, hen, hst⟩ := mem_of_statusOf hn
  rw [FriendHeap.flist_of_findUser hr] at he
  obtain ⟨x, hx, rfl⟩ := List.mem_map.1 he
  obtain ⟨b, t, hl⟩ := List.append_of_mem hx
  exact ⟨b, x, t, hl, hen, hst⟩

/-- The entry of a node. -/
theorem FriendHeap.Valid.statusOf_eq (hv : h.Valid) (hr : h.erase.findUser r.name = some r)
    (hmem : x ∈ h.flist r.name) (hx : x.1.friend = some n) :
    statusOf r.flist n = some x.1.status := by
  have hmem' : x.1 ∈ r.flist := by
    rw [FriendHeap.flist_of_findUser hr]
    exact List.mem_map_of_mem hmem
  exact statusOf_of_mem (hv.rep.friends r (Db.mem_of_findUser hr)) hmem' hx

/-- The other user has a node for the same friendship. -/
theorem FriendHeap.Valid.split_other (hv : h.Valid) (hs : h.erase.findUser s.name = some s)
    (hr : h.erase.findUser r.name = some r) (hst : statusOf r.flist s.name = some st) :
    ∃ b x t, h.flist s.name = b ++ x :: t ∧ x.1.friend = some r.name := by
  have hst' : statusOf s.flist r.name = some (mirror st) := by
    rw [statusOf_pair hv.rep hs hr, hst, Option.map_some]
  obtain ⟨b, x, t, hl, hx, -⟩ := FriendHeap.split_of_statusOf hs hst'
  exact ⟨b, x, t, hl, hx⟩

/-! ## The sections

Each, from the nodes that a search just before it would remember. -/

section Pair

variable (hv : h.Valid) (hs : h.erase.findUser s.name = some s)
  (hr : h.erase.findUser r.name = some r) (hne : s.name ≠ r.name)

include hs hr hne in
/-- The section that places a request, with the entries its calls of `dbFriendInit` make. -/
theorem placeNodes_eq (fprev : Option ℕ) : placeNodes s.name r.name fprev h =
    (NodeList.link fprev (⟨some s.name, .toanswer, toanswer_ne⟩, h.next) (h.flist r.name)).map
      fun l => { (h.setFlist r.name l).setFlist s.name (h.flist s.name ++
        [(⟨some r.name, .requested, requested_ne⟩, h.next + 1)]) with next := h.next + 2 } := by
  have hes : h.erase.dbFriendInit s.name .toanswer toanswer_ne =
      ⟨some s.name, .toanswer, toanswer_ne⟩ := by
    simp [Db.dbFriendInit, hs]
  have her : ∀ l, (h.setFlist r.name l).erase.dbFriendInit r.name .requested requested_ne =
      ⟨some r.name, .requested, requested_ne⟩ := by
    intro l
    simp [Db.dbFriendInit, FriendHeap.erase_setFlist, Db.findUser_relist, hr]
  simp only [placeNodes, hes, her, FriendHeap.flist_setFlist_of_ne hne]

include hv hs hr hne

theorem FriendHeap.Valid.placeNodes (hst : statusOf r.flist s.name = none) :
    ∃ h', placeNodes s.name r.name (NodeList.last (h.flist r.name)) h = some h' ∧
      h'.erase = h.erase.ask r s ∧ h'.Valid ∧ Evolves h h' := by
  have hnodup : ((h.flist r.name).map Prod.snd).Nodup := (hv.sorted r.name).imp Nat.ne_of_lt
  have hplace := placeNodes_eq hs hr hne (NodeList.last (h.flist r.name))
  rw [NodeList.link_last hnodup, Option.map_some] at hplace
  have herase : ((h.setFlist r.name (h.flist r.name ++ [(⟨some s.name, .toanswer, toanswer_ne⟩,
      h.next)])).setFlist s.name (h.flist s.name ++ [(⟨some r.name, .requested, requested_ne⟩,
      h.next + 1)])).erase = h.erase.ask r s := by
    rw [FriendHeap.erase_setFlist_setFlist hne.symm, Db.ask, FriendHeap.flist_of_findUser hs,
      FriendHeap.flist_of_findUser hr]
    simp
  refine ⟨_, hplace, herase, hv.setPair (by omega) ?_ ?_ ?_⟩
  · exact follows_append (hv.sorted _) (hv.lt_next _) le_rfl (by simp)
  · exact follows_append (hv.sorted _) (hv.lt_next _) (by simp) (by simp)
  · rw [herase]
    exact hv.rep.ask hs hr hne hst

theorem FriendHeap.Valid.acceptNodes (hl : h.flist r.name = b ++ x :: t)
    (hx : x.1.friend = some s.name) :
    ∃ h', acceptNodes s.name r.name x.2 h = some h' ∧ h'.erase = h.erase.befriend r s ∧
      h'.Valid ∧ Evolves h h' := by
  have hst := hv.statusOf_eq hr (x := x) (by simp [hl]) hx
  obtain ⟨b', x', t', hl', hx'⟩ := hv.split_other hs hr hst
  obtain ⟨-, haccept, -⟩ := hv.scan_split hr hl hx
  obtain ⟨hscan', haccept', -⟩ := hv.scan_split hs hl' hx'
  have hsorted := hl ▸ hv.sorted r.name
  have hsorted' := hl' ▸ hv.sorted s.name
  have hmem : x.2 ∈ (h.flist r.name).map Prod.snd := List.mem_map_of_mem (by simp [hl])
  have hupd : updateKey Prod.snd x.2 acceptNode (h.flist r.name) = b ++ acceptNode x :: t := by
    obtain ⟨hb, ht, -⟩ := sorted_split hsorted
    rw [hl]
    exact updateKey_split (fun y hy => Nat.ne_of_lt (hb y hy)) rfl
      fun y hy => Nat.ne_of_gt (ht y hy)
  have hplace : Ims.acceptNodes s.name r.name x.2 h =
      some ((h.setFlist r.name (b ++ acceptNode x :: t)).setFlist s.name
        (b' ++ acceptNode x' :: t')) := by
    simp only [Ims.acceptNodes, if_pos hmem, FriendHeap.flist_setFlist_of_ne hne, hscan', hupd]
  have herase : ((h.setFlist r.name (b ++ acceptNode x :: t)).setFlist s.name
      (b' ++ acceptNode x' :: t')).erase = h.erase.befriend r s := by
    rw [FriendHeap.erase_setFlist_setFlist hne.symm, haccept, haccept', Db.befriend]
  refine ⟨_, hplace, herase, hv.setPair le_rfl ?_ ?_ ?_⟩
  · rw [hl]
    exact follows_accept hsorted (hl ▸ hv.lt_next r.name)
  · rw [hl']
    exact follows_accept hsorted' (hl' ▸ hv.lt_next s.name)
  · rw [herase]
    exact hv.rep.befriend hs hr hne hst

theorem FriendHeap.Valid.unlinkNodes (hl : h.flist r.name = b ++ x :: t)
    (hx : x.1.friend = some s.name) :
    ∃ h', unlinkNodes s.name r.name (NodeList.last b) x.2 h = some h' ∧
      h'.erase = h.erase.part r s ∧ h'.Valid ∧ Evolves h h' := by
  have hst := hv.statusOf_eq hr (x := x) (by simp [hl]) hx
  obtain ⟨b', x', t', hl', hx'⟩ := hv.split_other hs hr hst
  obtain ⟨-, -, hdrop⟩ := hv.scan_split hr hl hx
  obtain ⟨hscan', -, hdrop'⟩ := hv.scan_split hs hl' hx'
  have hsorted := hl ▸ hv.sorted r.name
  have hsorted' := hl' ▸ hv.sorted s.name
  have hunlink : Ims.unlinkNodes s.name r.name (NodeList.last b) x.2 h =
      some ((h.setFlist r.name (b ++ t)).setFlist s.name (b' ++ t')) := by
    simp only [Ims.unlinkNodes, hl, NodeList.unlink_split (hsorted.imp Nat.ne_of_lt),
      Option.bind_some, FriendHeap.flist_setFlist_of_ne hne, hscan']
  have herase : ((h.setFlist r.name (b ++ t)).setFlist s.name (b' ++ t')).erase =
      h.erase.part r s := by
    rw [FriendHeap.erase_setFlist_setFlist hne.symm, hdrop, hdrop', Db.part]
  refine ⟨_, hunlink, herase, hv.setPair le_rfl ?_ ?_ ?_⟩
  · rw [hl]
    exact follows_drop hsorted (hl ▸ hv.lt_next r.name)
  · rw [hl']
    exact follows_drop hsorted' (hl' ▸ hv.lt_next s.name)
  · rw [herase]
    exact hv.rep.part hs hr hne

end Pair

/-! ## The handlers -/

section Look

variable {c : ℕ} (hv : h.Valid) (hs : h.erase.findConn c = some s)
  (hr : h.erase.findUser r.name = some r) (hne : s.name ≠ r.name)

include hv hs hr hne

theorem FriendHeap.Valid.look_place (hst : statusOf r.flist s.name = none) :
    (FriendOp.request r.name c).look h =
      some (.enter (.place s.name r.name (NodeList.last (h.flist r.name)))) := by
  simp [FriendOp.look, friendRequestLook, hs, hne, hr, hv.scan_none hr hst]

theorem FriendHeap.Valid.look_accept (hl : h.flist r.name = b ++ x :: t)
    (hx : x.1.friend = some s.name) (hst : x.1.status = .requested) :
    (FriendOp.request r.name c).look h = some (.enter (.accept s.name r.name x.2)) := by
  simp [FriendOp.look, friendRequestLook, hs, hne, hr, (hv.scan_split hr hl hx).1, hst]

theorem FriendHeap.Valid.look_unlink (hl : h.flist r.name = b ++ x :: t)
    (hx : x.1.friend = some s.name) : (FriendOp.remove r.name c).look h =
      some (.enter (.unlink s.name r.name (NodeList.last b) x.2)) := by
  simp [FriendOp.look, friendRemoveLook, hs, hne, hr, (hv.scan_split hr hl hx).1]

end Look

/-- The ways a search before `sem_wait` ends. -/
inductive FriendOp.Looked (h : FriendHeap) : FriendOp → Look Sent FriendPlan → Prop
  /-- Without a section, as the whole handler ends. -/
  | answers {op : FriendOp} {out : List Sent}
    (hstep : ∀ lim, step lim h.erase op.event = some (h.erase, out)) : Looked h op (.answer out)
  | places {c : ℕ} {s r : DbUser} (hs : h.erase.findConn c = some s)
    (hr : h.erase.findUser r.name = some r) (hne : s.name ≠ r.name)
    (hst : statusOf r.flist s.name = none) :
    Looked h (.request r.name c) (.enter (.place s.name r.name (NodeList.last (h.flist r.name))))
  | accepts {c : ℕ} {s r : DbUser} {b t : List (DbFriend × ℕ)} {x : DbFriend × ℕ}
    (hs : h.erase.findConn c = some s) (hr : h.erase.findUser r.name = some r)
    (hne : s.name ≠ r.name) (hl : h.flist r.name = b ++ x :: t) (hx : x.1.friend = some s.name)
    (hst : x.1.status = .requested) :
    Looked h (.request r.name c) (.enter (.accept s.name r.name x.2))
  | unlinks {c : ℕ} {s r : DbUser} {b t : List (DbFriend × ℕ)} {x : DbFriend × ℕ}
    (hs : h.erase.findConn c = some s) (hr : h.erase.findUser r.name = some r)
    (hne : s.name ≠ r.name) (hl : h.flist r.name = b ++ x :: t) (hx : x.1.friend = some s.name) :
    Looked h (.remove r.name c) (.enter (.unlink s.name r.name (NodeList.last b) x.2))

/-- Without a requester and another user to ask, both handlers answer with an error before
they look at a friend list. -/
theorem FriendOp.looked_of_error {op : FriendOp} {c : ℕ}
    (hno : ∀ s r, h.erase.findConn c = some s → h.erase.findUser n = some r → s.name = n)
    (hop : op = .request n c ∨ op = .remove n c) : ∃ k, op.look h = some k ∧ op.Looked h k := by
  have hanswer : ∃ et, op.look h = some (.answer [⟨c, .error et none⟩]) ∧
      ∀ lim, step lim h.erase op.event = some (h.erase, [⟨c, .error et none⟩]) := by
    cases hs : h.erase.findConn c with
    | none =>
      refine ⟨.clientNotBound, ?_, fun lim => ?_⟩ <;> rcases hop with rfl | rfl <;>
        simp [FriendOp.look, friendRequestLook, friendRemoveLook, step, FriendOp.event, handleMsg,
          handleOp, friendRequest, friendRemove, hs, answerError]
    | some s =>
      by_cases hne : s.name = n
      · refine ⟨.badCommand, ?_, fun lim => ?_⟩ <;> rcases hop with rfl | rfl <;>
          simp [FriendOp.look, friendRequestLook, friendRemoveLook, step, FriendOp.event, handleMsg,
            handleOp, friendRequest, friendRemove, hs, hne, answerError]
      · have hr : h.erase.findUser n = none :=
          Option.eq_none_iff_forall_ne_some.2 fun r hr => hne (hno s r hs hr)
        refine ⟨.userDoesNotExist, ?_, fun lim => ?_⟩ <;> rcases hop with rfl | rfl <;>
          simp [FriendOp.look, friendRequestLook, friendRemoveLook, step, FriendOp.event, handleMsg,
            handleOp, friendRequest, friendRemove, hs, hne, hr, answerError]
  obtain ⟨et, hlook, hstep⟩ := hanswer
  exact ⟨_, hlook, .answers hstep⟩

/-- Every search of `friendRequest` that finds both users. -/
theorem FriendHeap.Valid.looked_request (hv : h.Valid) {c : ℕ}
    (hs : h.erase.findConn c = some s) (hr : h.erase.findUser r.name = some r)
    (hne : s.name ≠ r.name) :
    ∃ k, (FriendOp.request r.name c).look h = some k ∧ (FriendOp.request r.name c).Looked h k := by
  cases hst : statusOf r.flist s.name with
  | none => exact ⟨_, hv.look_place hs hr hne hst, .places hs hr hne hst⟩
  | some st =>
    have heq := friendRequest_eq hv.rep hs hr hne
    obtain ⟨b, x, t, hl, hx, hxs⟩ := FriendHeap.split_of_statusOf hr hst
    have hscan := (hv.scan_split hr hl hx).1
    cases st with
    | not => exact absurd hst statusOf_ne_not
    | requested => exact ⟨_, hv.look_accept hs hr hne hl hx hxs, .accepts hs hr hne hl hx hxs⟩
    | toanswer =>
      exact ⟨_, by simp [FriendOp.look, friendRequestLook, hs, hne, hr, hscan, hxs]; rfl,
        .answers fun lim => by
          simp [step, FriendOp.event, handleMsg, handleOp, heq, hst, answerError]⟩
    | yes =>
      exact ⟨_, by simp [FriendOp.look, friendRequestLook, hs, hne, hr, hscan, hxs]; rfl,
        .answers fun lim => by
          simp [step, FriendOp.event, handleMsg, handleOp, heq, hst, answerError]⟩

/-- Every search of `friendRemove` that finds both users. -/
theorem FriendHeap.Valid.looked_remove (hv : h.Valid) {c : ℕ}
    (hs : h.erase.findConn c = some s) (hr : h.erase.findUser r.name = some r)
    (hne : s.name ≠ r.name) :
    ∃ k, (FriendOp.remove r.name c).look h = some k ∧ (FriendOp.remove r.name c).Looked h k := by
  cases hst : statusOf r.flist s.name with
  | none =>
    have heq := friendRemove_eq hv.rep hs hr hne
    exact ⟨_, by simp [FriendOp.look, friendRemoveLook, hs, hne, hr, hv.scan_none hr hst]; rfl,
      .answers fun lim => by
        simp [step, FriendOp.event, handleMsg, handleOp, heq, hst, answerError]⟩
  | some st =>
    obtain ⟨b, x, t, hl, hx, -⟩ := FriendHeap.split_of_statusOf hr hst
    exact ⟨_, hv.look_unlink hs hr hne hl hx, .unlinks hs hr hne hl hx⟩

/-- Every search ends in one of them. -/
theorem FriendHeap.Valid.looked (hv : h.Valid) (op : FriendOp) :
    ∃ k, op.look h = some k ∧ op.Looked h k := by
  by_cases hno : ∀ s r, h.erase.findConn op.connfd = some s →
      h.erase.findUser op.userName = some r → s.name = op.userName
  · exact FriendOp.looked_of_error hno (by cases op <;> simp [FriendOp.userName, FriendOp.connfd])
  · simp only [not_forall] at hno
    obtain ⟨s, r, hs, hr, hne⟩ := hno
    have hname := Db.name_of_findUser hr
    rw [← hname] at hr hne
    cases op with
    | request n c =>
      obtain rfl : r.name = n := hname
      exact hv.looked_request hs hr hne
    | remove n c =>
      obtain rfl : r.name = n := hname
      exact hv.looked_remove hs hr hne

theorem FriendHeap.Valid.looked_of_look {op : FriendOp} {k : Look Sent FriendPlan} (hv : h.Valid)
    (hl : op.look h = some k) : op.Looked h k := by
  obtain ⟨k', hl', hL⟩ := hv.looked op
  obtain rfl : k' = k := by simpa [hl'] using hl
  exact hL

theorem FriendOp.Looked.answer {op : FriendOp} {out : List Sent} (hL : op.Looked h (.answer out))
    (lim : ImpLimits) : step lim h.erase op.event = some (h.erase, out) := by
  cases hL with
  | answers hstep => exact hstep lim

/-- New friend lists do not change what the status updates say about the users. -/
theorem tellUsers_eq {c : ℕ} {lr ls : List DbFriend} {f g : DbUser → ImpMsg}
    (hs : h.erase.findUser s.name = some s) (hr : h.erase.findUser r.name = some r)
    (herase : h'.erase = h.erase.setPair r.name s.name lr ls)
    (hf : ∀ l, f { r with flist := l } = f r) (hg : ∀ l, g { s with flist := l } = g s) :
    tellUsers c s.name r.name f g h' = some (h', tellBoth c r (f r) (g s)) := by
  simp [tellUsers, herase, Db.findUser_setPair _ _ _ _ hs, Db.findUser_setPair _ _ _ _ hr, hf, hg,
    tellBoth]

/-- The section of a handler that has just looked is that of the handler in one step. -/
theorem FriendOp.Looked.enter {op : FriendOp} {q : FriendPlan} (hv : h.Valid)
    (hL : op.Looked h (.enter q)) (lim : ImpLimits) : ∃ h' out, op.enter q h = some (h', out) ∧
      step lim h.erase op.event = some (h'.erase, out) ∧ h'.Valid ∧ Evolves h h' := by
  cases hL with
  | @places c s r hs hr hne hst =>
    have hs' := hv.rep.findUser_of_mem (Db.mem_of_findConn hs)
    obtain ⟨h', hp, herase, hv', hev⟩ := hv.placeNodes hs' hr hne hst
    have htell := tellUsers_eq (c := c) (f := fun r => .status r.name .requested .not)
      (g := fun s => .status s.name .toanswer .not) hs' hr herase (fun _ => rfl) fun _ => rfl
    refine ⟨h', _, by rw [FriendOp.enter, hp]; exact htell, ?_, hv', hev⟩
    simp [step, FriendOp.event, handleMsg, handleOp, friendRequest_eq hv.rep hs hr hne, hst, herase]
  | @accepts c s r b t x hs hr hne hl hx hxs =>
    have hs' := hv.rep.findUser_of_mem (Db.mem_of_findConn hs)
    have hst := hv.statusOf_eq hr (x := x) (by simp [hl]) hx
    obtain ⟨h', hp, herase, hv', hev⟩ := hv.acceptNodes hs' hr hne hl hx
    have htell := tellUsers_eq (c := c) (f := fun r => .status r.name .yes r.active)
      (g := fun s => .status s.name .yes s.active) hs' hr herase (fun _ => rfl) fun _ => rfl
    refine ⟨h', _, by rw [FriendOp.enter, hp]; exact htell, ?_, hv', hev⟩
    simp [step, FriendOp.event, handleMsg, handleOp, friendRequest_eq hv.rep hs hr hne, hst, hxs,
      herase]
  | @unlinks c s r b t x hs hr hne hl hx =>
    have hs' := hv.rep.findUser_of_mem (Db.mem_of_findConn hs)
    have hst := hv.statusOf_eq hr (x := x) (by simp [hl]) hx
    obtain ⟨h', hp, herase, hv', hev⟩ := hv.unlinkNodes hs' hr hne hl hx
    have htell := tellUsers_eq (c := c) (f := fun r => .status r.name .not .not)
      (g := fun s => .status s.name .not .not) hs' hr herase (fun _ => rfl) fun _ => rfl
    refine ⟨h', _, by rw [FriendOp.enter, hp]; exact htell, ?_, hv', hev⟩
    simp [step, FriendOp.event, handleMsg, handleOp, friendRemove_eq hv.rep hs hr hne, hst, herase]

end Ims

end ClassProjects
