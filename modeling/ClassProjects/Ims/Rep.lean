import ClassProjects.Ims.Handlers

/-!
# The representation invariant of the user database

A friendship is stored twice, as an entry in the list of each user. `Db.Rep` says that
the two agree, next to what keeps them findable : distinct names, no entry for oneself,
no second entry for one user, and a user behind every entry.

`Db.rel a b` is what `a`'s list says about `b`, so the mirror conditions are about `rel`
alone (`Rep.rel_yes`, `Rep.rel_requested`). Every edit of the friend lists is an edit of
one pair : both lists change their entry for the other user, and no other entry
(`EditAt`, `Db.setPair`). `Rep.setPair` keeps the invariant through any such edit that
leaves the two entries mirrored.
-/

namespace ClassProjects

namespace Ims

open KeyedList

/-! ## The invariant -/

/-- The user names, in list order. -/
abbrev Db.names (db : Db) : List CStr :=
  db.users.map DbUser.name

/-- The representation invariant. -/
structure Db.Rep (db : Db) : Prop where
  names : db.names.Nodup
  active_iff : ∀ u ∈ db.users, u.active = .yes ↔ u.connfd ≠ -1
  no_self : ∀ u ∈ db.users, ∀ e ∈ u.flist, e.friend ≠ some u.name
  friends : ∀ u ∈ db.users, (u.flist.map DbFriend.friend).Nodup
  resolves : ∀ u ∈ db.users, ∀ e ∈ u.flist, ∃ v ∈ db.users, e.friend = some v.name
  mirror_yes : ∀ u ∈ db.users, ∀ v ∈ db.users,
    statusOf u.flist v.name = some .yes ↔ statusOf v.flist u.name = some .yes
  mirror_requested : ∀ u ∈ db.users, ∀ v ∈ db.users,
    statusOf u.flist v.name = some .requested ↔ statusOf v.flist u.name = some .toanswer

instance (db : Db) : Decidable db.Rep :=
  decidable_of_iff
    (db.names.Nodup ∧ (∀ u ∈ db.users, u.active = .yes ↔ u.connfd ≠ -1) ∧
      (∀ u ∈ db.users, ∀ e ∈ u.flist, e.friend ≠ some u.name) ∧
      (∀ u ∈ db.users, (u.flist.map DbFriend.friend).Nodup) ∧
      (∀ u ∈ db.users, ∀ e ∈ u.flist, ∃ v ∈ db.users, e.friend = some v.name) ∧
      (∀ u ∈ db.users, ∀ v ∈ db.users,
        statusOf u.flist v.name = some .yes ↔ statusOf v.flist u.name = some .yes) ∧
      ∀ u ∈ db.users, ∀ v ∈ db.users,
        statusOf u.flist v.name = some .requested ↔ statusOf v.flist u.name = some .toanswer)
    ⟨fun ⟨h₁, h₂, h₃, h₄, h₅, h₆, h₇⟩ => ⟨h₁, h₂, h₃, h₄, h₅, h₆, h₇⟩,
      fun h => ⟨h.names, h.active_iff, h.no_self, h.friends, h.resolves, h.mirror_yes,
        h.mirror_requested⟩⟩

/-- What the list of the user `a` says about `b`. -/
def Db.rel (db : Db) (a b : CStr) : Option ImpFriend :=
  (db.findUser a).bind fun u => statusOf u.flist b

variable {db : Db} {u v : DbUser} {l l' : List DbFriend} {n m : CStr} {e : DbFriend}
  {st : ImpFriend} {connfd : ℕ}

/-! ## Searches -/

theorem Db.mem_of_findUser (h : db.findUser n = some u) : u ∈ db.users :=
  mem_of_lookup h

theorem Db.name_of_findUser (h : db.findUser n = some u) : u.name = n :=
  key_of_lookup h

theorem Db.mem_of_findConn (h : db.findConn connfd = some u) : u ∈ db.users :=
  List.mem_of_find?_eq_some h

theorem Db.connfd_of_findConn (h : db.findConn connfd = some u) : u.connfd = connfd := by
  simpa using List.find?_some h

theorem Db.mem_names : n ∈ db.names ↔ ∃ u, db.findUser n = some u := by
  constructor
  · intro hn
    obtain ⟨u, hu, rfl⟩ := List.mem_map.1 hn
    exact lookup_isSome_of_mem hu
  · rintro ⟨u, hu⟩
    exact List.mem_map.2 ⟨u, Db.mem_of_findUser hu, Db.name_of_findUser hu⟩

theorem Db.Rep.findUser_of_mem (h : db.Rep) (hu : u ∈ db.users) : db.findUser u.name = some u :=
  lookup_of_mem h.names hu

theorem Db.Rep.rel_eq (h : db.Rep) (hu : u ∈ db.users) : db.rel u.name n = statusOf u.flist n := by
  simp [Db.rel, h.findUser_of_mem hu]

/-- A user with a connection is active. -/
theorem Db.Rep.active_of_connfd (h : db.Rep) (hu : u ∈ db.users) (hc : u.connfd = connfd) :
    u.active = .yes :=
  (h.active_iff u hu).2 (by omega)

theorem statusOf_eq_none : statusOf l n = none ↔ ∀ e ∈ l, e.friend ≠ some n := by
  simp [statusOf, lookup_eq_none]

theorem mem_of_statusOf (h : statusOf l n = some st) :
    ∃ e ∈ l, e.friend = some n ∧ e.status = st := by
  obtain ⟨e, he, rfl⟩ := Option.map_eq_some_iff.1 h
  exact ⟨e, mem_of_lookup he, key_of_lookup he, rfl⟩

theorem statusOf_of_mem (hl : (l.map DbFriend.friend).Nodup) (he : e ∈ l)
    (hn : e.friend = some n) : statusOf l n = some e.status := by
  rw [statusOf, ← hn, lookup_of_mem hl he]
  rfl

theorem statusOf_ne_not : statusOf l n ≠ some .not := by
  intro h
  obtain ⟨e, -, -, he⟩ := mem_of_statusOf h
  exact e.status_ne he

/-- No friend has a name that no user has. -/
theorem Db.Rep.rel_eq_none_of_findUser (h : db.Rep) (hm : db.findUser m = none) :
    db.rel n m = none := by
  cases hn : db.findUser n with
  | none => simp [Db.rel, hn]
  | some u =>
    have hu := Db.mem_of_findUser hn
    rw [← Db.name_of_findUser hn, h.rel_eq hu, statusOf_eq_none]
    intro e he hem
    obtain ⟨v, hv, hev⟩ := h.resolves u hu e he
    have hvm : v.name = m := by simpa [hev] using hem
    exact lookup_eq_none.1 hm v hv hvm

theorem Db.Rep.rel_self (h : db.Rep) : db.rel n n = none := by
  cases hn : db.findUser n with
  | none => simp [Db.rel, hn]
  | some u =>
    have hu := Db.mem_of_findUser hn
    obtain rfl := Db.name_of_findUser hn
    rw [h.rel_eq hu, statusOf_eq_none]
    exact h.no_self u hu

theorem Db.rel_of_findUser_eq_none (hn : db.findUser n = none) : db.rel n m = none := by
  simp [Db.rel, hn]

/-- A mirror condition on users is one on names. -/
theorem Db.Rep.rel_mirror (h : db.Rep) {s t : ImpFriend}
    (hm : ∀ u ∈ db.users, ∀ v ∈ db.users,
      statusOf u.flist v.name = some s ↔ statusOf v.flist u.name = some t) :
    db.rel n m = some s ↔ db.rel m n = some t := by
  cases hn : db.findUser n with
  | none => simp [Db.rel_of_findUser_eq_none hn, h.rel_eq_none_of_findUser hn]
  | some u =>
    cases hm' : db.findUser m with
    | none => simp [Db.rel_of_findUser_eq_none hm', h.rel_eq_none_of_findUser hm']
    | some v =>
      have hu := Db.mem_of_findUser hn
      have hv := Db.mem_of_findUser hm'
      rw [← Db.name_of_findUser hn, ← Db.name_of_findUser hm', h.rel_eq hu, h.rel_eq hv]
      exact hm u hu v hv

theorem Db.Rep.rel_yes (h : db.Rep) : db.rel n m = some .yes ↔ db.rel m n = some .yes :=
  h.rel_mirror h.mirror_yes

theorem Db.Rep.rel_requested (h : db.Rep) :
    db.rel n m = some .requested ↔ db.rel m n = some .toanswer :=
  h.rel_mirror h.mirror_requested

theorem Db.rel_ne_not : db.rel n m ≠ some .not := by
  intro h
  obtain ⟨u, -, hu⟩ := Option.bind_eq_some_iff.1 h
  exact statusOf_ne_not hu

/-- What the other user's list says when a list says `st`. -/
def mirror : ImpFriend → ImpFriend
  | .requested => .toanswer
  | .toanswer => .requested
  | st => st

/-- The two mirror conditions in one equation. -/
theorem Db.Rep.rel_comm (h : db.Rep) : db.rel m n = (db.rel n m).map mirror := by
  cases hs : db.rel n m with
  | some s =>
    cases s with
    | not => exact absurd hs Db.rel_ne_not
    | requested => exact h.rel_requested.1 hs
    | toanswer => exact h.rel_requested.2 hs
    | yes => exact h.rel_yes.1 hs
  | none =>
    cases ht : db.rel m n with
    | none => rfl
    | some t =>
      cases t with
      | not => exact absurd ht Db.rel_ne_not
      | requested => simp [h.rel_requested.1 ht] at hs
      | toanswer => simp [h.rel_requested.2 ht] at hs
      | yes => simp [h.rel_yes.1 ht] at hs

/-- The mirror conditions follow from the equation. -/
theorem Db.mirror_of_rel_comm (hn : db.names.Nodup)
    (hc : ∀ n m, db.rel m n = (db.rel n m).map mirror) {s t : ImpFriend} (hst : mirror s = t)
    (hts : mirror t = s) (hu : u ∈ db.users) (hv : v ∈ db.users) :
    statusOf u.flist v.name = some s ↔ statusOf v.flist u.name = some t := by
  have hu' : db.rel u.name v.name = statusOf u.flist v.name := by
    simp [Db.rel, Db.findUser, ← lookup.eq_def, lookup_of_mem hn hu]
  have hv' : db.rel v.name u.name = statusOf v.flist u.name := by
    simp [Db.rel, Db.findUser, ← lookup.eq_def, lookup_of_mem hn hv]
  rw [← hu', ← hv']
  constructor
  · intro h
    rw [hc u.name v.name, h, ← hst]
    rfl
  · intro h
    rw [hc v.name u.name, h, ← hts]
    rfl

/-! ## Edits of the friend lists -/

/-- Give every user the friend list `g` chooses. -/
def Db.relist (db : Db) (g : DbUser → List DbFriend) : Db :=
  { db with users := db.users.map fun u => { u with flist := g u } }

theorem Db.names_relist (g : DbUser → List DbFriend) : (db.relist g).names = db.names := by
  simp [Db.names, Db.relist, Function.comp_def]

theorem Db.findUser_relist (g : DbUser → List DbFriend) :
    (db.relist g).findUser n = (db.findUser n).map fun u => { u with flist := g u } := by
  rw [Db.findUser, Db.relist, List.find?_map]
  rfl

theorem Db.findConn_relist (g : DbUser → List DbFriend) :
    (db.relist g).findConn connfd =
      (db.findConn connfd).map fun u => { u with flist := g u } := by
  rw [Db.findConn, Db.relist, List.find?_map]
  rfl

/-- `l'` is `l` with the entry for `n` changed to say `st`, or removed. -/
structure EditAt (n : CStr) (st : Option ImpFriend) (l l' : List DbFriend) : Prop where
  friends : (l'.map DbFriend.friend).Nodup
  mem : ∀ e ∈ l', e.friend = some n ∨ e ∈ l
  status : ∀ m, statusOf l' m = if m = n then st else statusOf l m

theorem editAt_append (hl : (l.map DbFriend.friend).Nodup) (hn : statusOf l n = none)
    (hst : st ≠ .not) : EditAt n (some st) l (l ++ [⟨some n, st, hst⟩]) where
  friends := nodup_append_singleton hl (by simpa [statusOf] using hn)
  mem e he := by
    rcases List.mem_append.1 he with h | h
    · exact Or.inr h
    · exact Or.inl (by rw [List.mem_singleton.1 h])
  status m := by
    rw [statusOf, lookup_append_singleton (by simpa [statusOf] using hn)]
    by_cases hm : m = n <;> simp [hm, statusOf]

@[simp] theorem DbFriend.friend_setStatus (hst : st ≠ .not) :
    (e.setStatus st hst).friend = e.friend :=
  rfl

@[simp] theorem DbFriend.status_setStatus (hst : st ≠ .not) : (e.setStatus st hst).status = st :=
  rfl

theorem editAt_setStatus (hl : (l.map DbFriend.friend).Nodup) {s : ImpFriend}
    (hn : statusOf l n = some s) (hst : st ≠ .not) :
    EditAt n (some st) l (updateKey DbFriend.friend (some n) (·.setStatus st hst) l) where
  friends := by
    rw [map_key_updateKey fun _ => DbFriend.friend_setStatus hst]
    exact hl
  mem e he := by
    obtain ⟨x, hx, rfl⟩ := mem_updateKey.1 he
    split_ifs with h
    · exact Or.inl h
    · exact Or.inr hx
  status m := by
    obtain ⟨e, he, -⟩ := Option.map_eq_some_iff.1 hn
    rw [statusOf, lookup_updateKey fun _ => DbFriend.friend_setStatus hst]
    by_cases hm : m = n
    · subst hm
      simp [he]
    · simp [hm, statusOf]

theorem editAt_drop (hl : (l.map DbFriend.friend).Nodup) :
    EditAt n none l (dropKey DbFriend.friend (some n) l) where
  friends := nodup_dropKey hl
  mem e he := Or.inr (List.mem_of_mem_filter he)
  status m := by
    rw [statusOf, lookup_dropKey]
    by_cases hm : m = n <;> simp [hm, statusOf]

/-- Give the users `a` and `b` new friend lists. -/
def Db.setPair (db : Db) (a b : CStr) (la lb : List DbFriend) : Db :=
  db.relist fun u => if u.name = a then la else if u.name = b then lb else u.flist

variable {a b : CStr} {ua ub : DbUser} {la lb : List DbFriend} {s t : Option ImpFriend}

theorem Db.findUser_setPair (a b : CStr) (la lb : List DbFriend) (hu : db.findUser n = some u) :
    (db.setPair a b la lb).findUser n =
      some { u with flist := if u.name = a then la else if u.name = b then lb else u.flist } := by
  rw [Db.setPair, Db.findUser_relist, hu, Option.map_some]

/-- An edit of one pair changes what the two say about each other, and nothing else. -/
theorem Db.Rep.rel_setPair (h : db.Rep) (ha : db.findUser a = some ua)
    (hb : db.findUser b = some ub) (hab : a ≠ b) (hla : EditAt b t ua.flist la)
    (hlb : EditAt a s ub.flist lb) : (db.setPair a b la lb).rel n m =
      if n = a ∧ m = b then t else if n = b ∧ m = a then s else db.rel n m := by
  rw [Db.rel, Db.setPair, Db.findUser_relist]
  by_cases h₁ : n = a
  · obtain rfl := Db.name_of_findUser ha
    subst h₁
    by_cases hm : m = b <;> simp [ha, hla.status, hm, hab, h.rel_eq (Db.mem_of_findUser ha)]
  · by_cases h₂ : n = b
    · obtain rfl := Db.name_of_findUser hb
      subst h₂
      by_cases hm : m = a <;> simp [hb, hlb.status, hm, h₁, h.rel_eq (Db.mem_of_findUser hb)]
    · cases hn : db.findUser n with
      | none => simp [Db.rel, hn, h₁, h₂]
      | some u => simp [Db.rel, hn, Db.name_of_findUser hn, h₁, h₂]

/-- New friend lists keep the invariant if their entries are distinct, are for other
users, and mirror each other. -/
theorem Db.Rep.relist (h : db.Rep) {g : DbUser → List DbFriend}
    (hf : ∀ u ∈ db.users, ((g u).map DbFriend.friend).Nodup)
    (he : ∀ u ∈ db.users, ∀ e ∈ g u, ∃ v ∈ db.users, e.friend = some v.name ∧ v.name ≠ u.name)
    (hc : ∀ n m, (db.relist g).rel m n = ((db.relist g).rel n m).map mirror) :
    (db.relist g).Rep := by
  have hnames : (db.relist g).names.Nodup := by
    rw [Db.names_relist]
    exact h.names
  refine ⟨hnames, ?_, ?_, ?_, ?_, ?_, ?_⟩
  · simpa [Db.relist] using h.active_iff
  · intro u hu e hue
    obtain ⟨u, hu', rfl⟩ := List.mem_map.1 hu
    obtain ⟨v, -, hev, hne⟩ := he u hu' e hue
    simpa [hev] using hne
  · simpa [Db.relist] using hf
  · intro u hu e hue
    obtain ⟨u, hu', rfl⟩ := List.mem_map.1 hu
    obtain ⟨v, hv, hev, -⟩ := he u hu' e hue
    exact ⟨_, List.mem_map_of_mem hv, hev⟩
  · exact fun u hu v hv => Db.mirror_of_rel_comm hnames hc rfl rfl hu hv
  · exact fun u hu v hv => Db.mirror_of_rel_comm hnames hc rfl rfl hu hv

/-- An edit of one pair of users that mirrors in both lists keeps the invariant. -/
theorem Db.Rep.setPair (h : db.Rep) (ha : db.findUser a = some ua) (hb : db.findUser b = some ub)
    (hab : a ≠ b) (hla : EditAt b t ua.flist la) (hlb : EditAt a s ub.flist lb)
    (hst : t = s.map mirror) : (db.setPair a b la lb).Rep := by
  subst hst
  have hua := Db.mem_of_findUser ha
  have hub := Db.mem_of_findUser hb
  obtain rfl := Db.name_of_findUser ha
  obtain rfl := Db.name_of_findUser hb
  have hold : ∀ u ∈ db.users, ∀ e ∈ u.flist,
      ∃ v ∈ db.users, e.friend = some v.name ∧ v.name ≠ u.name := by
    intro u hu e he
    obtain ⟨v, hv, hev⟩ := h.resolves u hu e he
    exact ⟨v, hv, hev, fun heq => h.no_self u hu e he (heq ▸ hev)⟩
  refine h.relist (fun u hu => ?_) (fun u hu e he => ?_) (fun n m => ?_)
  · split_ifs
    · exact hla.friends
    · exact hlb.friends
    · exact h.friends u hu
  · split_ifs at he with h₁ h₂
    · obtain rfl := List.inj_on_of_nodup_map h.names hu hua h₁
      exact (hla.mem e he).elim (fun hb => ⟨ub, hub, hb, hab.symm⟩) (hold u hu e)
    · obtain rfl := List.inj_on_of_nodup_map h.names hu hub h₂
      exact (hlb.mem e he).elim (fun hb => ⟨ua, hua, hb, hab⟩) (hold u hu e)
    · exact hold u hu e he
  · -- the two entries of the pair mirror by assumption, all others as before
    have hrel := fun n m => h.rel_setPair (n := n) (m := m) ha hb hab hla hlb
    have hmm : ∀ st, mirror (mirror st) = st := by
      intro st
      cases st <;> rfl
    show (db.setPair ua.name ub.name la lb).rel m n =
      ((db.setPair ua.name ub.name la lb).rel n m).map mirror
    rw [hrel, hrel]
    by_cases h₁ : n = ua.name ∧ m = ub.name
    · obtain ⟨rfl, rfl⟩ := h₁
      simp [hab, hab.symm, Option.map_map, Function.comp_def, hmm]
    · by_cases h₂ : n = ub.name ∧ m = ua.name
      · obtain ⟨rfl, rfl⟩ := h₂
        simp [hab.symm]
      · rw [if_neg (fun h => h₂ h.symm), if_neg (fun h => h₁ h.symm), if_neg h₁, if_neg h₂]
        exact h.rel_comm

/-! ## Edits of the user list -/

/-- `registerUser` links a new user behind the last one. -/
def Db.append (db : Db) (n : CStr) : Db :=
  { db with users := db.users ++ [dbUserInit n] }

theorem Db.findUser_append (hn : db.findUser n = none) :
    (db.append n).findUser m = if m = n then some (dbUserInit n) else db.findUser m :=
  lookup_append_singleton hn

theorem Db.rel_append (hn : db.findUser n = none) :
    (db.append n).rel a b = db.rel a b := by
  rw [Db.rel, Db.findUser_append hn]
  split_ifs with ha
  · subst ha
    rw [Db.rel_of_findUser_eq_none hn]
    rfl
  · rfl

/-- A new user keeps the invariant. -/
theorem Db.Rep.append (h : db.Rep) (hn : db.findUser n = none) : (db.append n).Rep := by
  have hnames : (db.append n).names.Nodup := nodup_append_singleton h.names hn
  have hc : ∀ a b, (db.append n).rel b a = ((db.append n).rel a b).map mirror := by
    intro a b
    rw [Db.rel_append hn, Db.rel_append hn, h.rel_comm]
  refine ⟨hnames, ?_, ?_, ?_, fun u hu e he => ?_,
    fun u hu v hv => Db.mirror_of_rel_comm hnames hc rfl rfl hu hv,
    fun u hu v hv => Db.mirror_of_rel_comm hnames hc rfl rfl hu hv⟩
  · simpa [Db.append, dbUserInit, or_imp, forall_and] using h.active_iff
  · simpa [Db.append, dbUserInit, or_imp, forall_and] using h.no_self
  · simpa [Db.append, dbUserInit, or_imp, forall_and] using h.friends
  · rcases List.mem_append.1 hu with hu | hu
    · obtain ⟨v, hv, hev⟩ := h.resolves u hu e he
      exact ⟨v, List.mem_append_left _ hv, hev⟩
    · rw [List.mem_singleton.1 hu] at he
      simp [dbUserInit] at he

/-- The user node after binding it to a connection, or unbinding it. -/
def DbUser.rebind (u : DbUser) (active : ImpActive) (fd : ℤ) : DbUser :=
  { u with active := active, connfd := fd }

/-- Bind the user with the name to a connection, or unbind him. -/
def Db.rebind (db : Db) (n : CStr) (active : ImpActive) (fd : ℤ) : Db :=
  { db with users := updateKey DbUser.name n (fun u => u.rebind active fd) db.users }

variable {active : ImpActive} {fd : ℤ}

@[simp] theorem DbUser.name_rebind : (u.rebind active fd).name = u.name :=
  rfl

@[simp] theorem DbUser.flist_rebind : (u.rebind active fd).flist = u.flist :=
  rfl

theorem Db.findUser_rebind : (db.rebind n active fd).findUser m =
    (db.findUser m).map fun u => if m = n then u.rebind active fd else u :=
  lookup_updateKey fun _ => DbUser.name_rebind

theorem Db.mem_rebind : v ∈ (db.rebind n active fd).users ↔
    ∃ u ∈ db.users, (if u.name = n then u.rebind active fd else u) = v :=
  mem_updateKey

theorem Db.names_rebind : (db.rebind n active fd).names = db.names :=
  map_key_updateKey fun _ => DbUser.name_rebind

@[simp] theorem Db.rel_rebind : (db.rebind n active fd).rel a b = db.rel a b := by
  rw [Db.rel, Db.rel, Db.findUser_rebind]
  cases db.findUser a with
  | none => rfl
  | some u => by_cases ha : a = n <;> simp [ha]

/-- Binding and unbinding keep the invariant if the flag agrees with the descriptor. -/
theorem Db.Rep.rebind (h : db.Rep) (hfd : active = .yes ↔ fd ≠ -1) :
    (db.rebind n active fd).Rep := by
  have hmem : ∀ v ∈ (db.rebind n active fd).users,
      ∃ u ∈ db.users, v.name = u.name ∧ v.flist = u.flist := by
    intro v hv
    obtain ⟨u, hu, rfl⟩ := Db.mem_rebind.1 hv
    refine ⟨u, hu, ?_⟩
    split_ifs <;> simp
  have hnames : (db.rebind n active fd).names.Nodup := by
    rw [Db.names_rebind]
    exact h.names
  have hc : ∀ a b, (db.rebind n active fd).rel b a =
      ((db.rebind n active fd).rel a b).map mirror := by
    intro a b
    rw [Db.rel_rebind, Db.rel_rebind, h.rel_comm]
  refine ⟨hnames, fun v hv => ?_, fun v hv => ?_, fun v hv => ?_, fun v hv e he => ?_,
    fun u hu v hv => Db.mirror_of_rel_comm hnames hc rfl rfl hu hv,
    fun u hu v hv => Db.mirror_of_rel_comm hnames hc rfl rfl hu hv⟩
  · obtain ⟨u, hu, rfl⟩ := Db.mem_rebind.1 hv
    split_ifs
    · exact hfd
    · exact h.active_iff u hu
  · obtain ⟨u, hu, hn, hl⟩ := hmem v hv
    rw [hn, hl]
    exact h.no_self u hu
  · obtain ⟨u, hu, -, hl⟩ := hmem v hv
    rw [hl]
    exact h.friends u hu
  · obtain ⟨u, hu, -, hl⟩ := hmem v hv
    obtain ⟨w, hw, hew⟩ := h.resolves u hu e (hl ▸ he)
    have hmap : w.name ∈ (db.rebind n active fd).names := by
      rw [Db.names_rebind]
      exact List.mem_map_of_mem hw
    obtain ⟨w', hw', hww⟩ := List.mem_map.1 hmap
    exact ⟨w', hw', by rw [hew, hww]⟩

end Ims

end ClassProjects
