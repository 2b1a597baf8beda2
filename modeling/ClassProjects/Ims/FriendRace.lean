import ClassProjects.Ims.FriendHeap

/-!
# Concurrent friend operations

Any number of `friendRequest` and `friendRemove` handlers, from different connections,
interleave as the two steps of `Lib/TwoPhase` : a search without the semaphore, and a
section with it.

A section is safe if the nodes its search remembered are still where it found them
(`NodesCurrent`) : `fcur` and `fprev` in the list, and for a new request `fprev` still
the last node. `friendOps_serial` : while every section is, the handlers do what they do
one after the other, in the order they finish. `friendOps_consistent_iff` : for two
handlers the condition is exact, since a section that fails it reads freed memory or
leaves a friendship in one list only.
-/

namespace ClassProjects

namespace Ims

open TwoPhase (Conf Repeats)

/-- A configuration of concurrent friend operations. -/
abbrev FriendConf (ι : Type*) :=
  Conf ι FriendHeap FriendPlan

/-- The next step of one of the handlers. -/
def friendStep {ι : Type*} [DecidableEq ι] (ops : ι → FriendOp) :
    FriendConf ι → ι → Option (FriendConf ι × List Sent) :=
  TwoPhase.step (fun i => (ops i).look) fun i => (ops i).enter

/-- The remembered nodes are in the list, and a new request's is the last. -/
def FriendPlan.Current (h : FriendHeap) : FriendPlan → Prop
  | .place _ r fprev => fprev = NodeList.last (h.flist r)
  | .accept _ r fcur => fcur ∈ (h.flist r).map Prod.snd
  | .unlink _ r fprev fcur =>
    fcur ∈ (h.flist r).map Prod.snd ∧ ∀ a ∈ fprev, a ∈ (h.flist r).map Prod.snd

instance (h : FriendHeap) (q : FriendPlan) : Decidable (q.Current h) :=
  match q with
  | .place _ r fprev => inferInstanceAs (Decidable (fprev = NodeList.last (h.flist r)))
  | .accept _ r fcur => inferInstanceAs (Decidable (fcur ∈ (h.flist r).map Prod.snd))
  | .unlink _ r fprev fcur =>
    inferInstanceAs (Decidable (fcur ∈ (h.flist r).map Prod.snd ∧
      ∀ a ∈ fprev, a ∈ (h.flist r).map Prod.snd))

/-- If the step is a section, it meets the nodes its search remembered. -/
def NodesCurrent {ι : Type*} (c : FriendConf ι) (i : ι) : Prop :=
  i ∉ c.finished → ∀ q ∈ c.plans i, q.Current c.shared

instance {ι : Type*} [DecidableEq ι] (c : FriendConf ι) (i : ι) : Decidable (NodesCurrent c i) :=
  inferInstanceAs (Decidable (i ∉ c.finished → ∀ q ∈ c.plans i, q.Current c.shared))

/-! ## What is true of remembered nodes -/

/-- The name of the user bound to a connection. -/
def FriendHeap.nameOf (h : FriendHeap) (connfd : ℕ) : Option CStr :=
  (h.users.find? fun u => u.connfd = (connfd : ℤ)).map UserHead.name

/-- What stays true of the remembered nodes, as long as they are in the list. Nodes are
allocated in address order, so whatever comes later is behind them. -/
inductive FriendOp.Remembers (h : FriendHeap) : FriendOp → FriendPlan → Prop
  | place {c : ℕ} {s r : CStr} {fprev : Option ℕ} (hs : h.nameOf c = some s)
    (hr : r ∈ h.users.map UserHead.name) (hne : s ≠ r) (hlt : ∀ a ∈ fprev, a < h.next)
    (hnew : ∀ y ∈ h.flist r, y.1.friend = some s → ∀ a ∈ fprev, a < y.2) :
    Remembers h (.request r c) (.place s r fprev)
  | accept {c : ℕ} {s r : CStr} {fcur : ℕ} (hs : h.nameOf c = some s)
    (hr : r ∈ h.users.map UserHead.name) (hne : s ≠ r) (hlt : fcur < h.next)
    (hfriend : ∀ y ∈ h.flist r, y.2 = fcur → y.1.friend = some s)
    (hst : fcur ∈ (h.flist r).map Prod.snd → h.erase.rel r s = some .requested) :
    Remembers h (.request r c) (.accept s r fcur)
  | unlink {c : ℕ} {s r : CStr} {fprev : Option ℕ} {fcur : ℕ} (hs : h.nameOf c = some s)
    (hr : r ∈ h.users.map UserHead.name) (hne : s ≠ r) (hlt : fcur < h.next)
    (hfriend : ∀ y ∈ h.flist r, y.2 = fcur → y.1.friend = some s)
    (hprev : ∀ a ∈ fprev, a < fcur)
    (hbetween : ∀ y ∈ h.flist r, y.2 < fcur → ∃ a ∈ fprev, y.2 ≤ a) :
    Remembers h (.remove r c) (.unlink s r fprev fcur)

section Nodes

variable {lim : ImpLimits} {db db' : Db} {h h' : FriendHeap} {op : FriendOp} {q : FriendPlan}
  {s r : DbUser} {u : DbUser} {n m : CStr} {c : ℕ} {x y : DbFriend × ℕ}
  {b t l : List (DbFriend × ℕ)} {ev : Event} {out : List Sent} {st : ImpFriend}

theorem FriendHeap.nameOf_eq : h.nameOf c = (h.erase.findConn c).map DbUser.name := by
  simp [FriendHeap.nameOf, Db.findConn, FriendHeap.erase, List.find?_map, Function.comp_def]

theorem FriendHeap.names_erase : h.erase.names = h.users.map UserHead.name := by
  simp [FriendHeap.erase, Db.names, Function.comp_def]

theorem FriendHeap.mem_users_of_findUser (hr : h.erase.findUser n = some r) :
    n ∈ h.users.map UserHead.name := by
  rw [← FriendHeap.names_erase]
  exact Db.mem_names.2 ⟨r, hr⟩

theorem eq_of_sorted (hl : (l.map Prod.snd).Pairwise (· < ·)) (hx : x ∈ l) (hy : y ∈ l)
    (hxy : x.2 = y.2) : x = y :=
  List.inj_on_of_nodup_map (hl.imp Nat.ne_of_lt) hx hy hxy

/-- A node with a lower address is before. -/
theorem mem_of_sorted_of_lt (hl : ((b ++ x :: t).map Prod.snd).Pairwise (· < ·))
    (hy : y ∈ b ++ x :: t) (hyx : y.2 < x.2) : y ∈ b := by
  have ht := (sorted_split hl).2.1
  rcases List.mem_append.1 hy with hy | hy
  · exact hy
  · rcases List.mem_cons.1 hy with rfl | hy
    · omega
    · exact absurd (ht y hy) (by omega)

theorem sorted_left (hl : ((b ++ t).map Prod.snd).Pairwise (· < ·)) :
    (b.map Prod.snd).Pairwise (· < ·) :=
  hl.sublist ((List.sublist_append_left b t).map Prod.snd)

/-- A node that is before `x`, and that no node between follows, is the last before `x`. -/
theorem last_eq_of_between {p : Option ℕ} (hl : ((b ++ x :: t).map Prod.snd).Pairwise (· < ·))
    (hp : ∀ a ∈ p, a < x.2 ∧ a ∈ (b ++ x :: t).map Prod.snd) (hb : ∀ y ∈ b, ∃ a ∈ p, y.2 ≤ a) :
    NodeList.last b = p := by
  cases p with
  | none =>
    refine NodeList.last_eq_none.2 (List.eq_nil_iff_forall_not_mem.2 fun y hy => ?_)
    obtain ⟨a, ha, -⟩ := hb y hy
    simp at ha
  | some a =>
    obtain ⟨hlt, hmem⟩ := hp a rfl
    obtain ⟨z, hz, rfl⟩ := List.mem_map.1 hmem
    have hzb := mem_of_sorted_of_lt hl hz hlt
    obtain ⟨a', ha', hle⟩ := NodeList.le_last (sorted_left hl) hzb
    obtain ⟨z', hz', rfl⟩ := List.mem_map.1 (NodeList.mem_of_last ha')
    obtain ⟨a'', ha'', hle'⟩ := hb z' hz'
    obtain rfl : z.2 = a'' := by simpa using ha''
    rw [ha', Nat.le_antisymm hle' hle]

/-- A search remembers nodes of which this is true. -/
theorem FriendOp.Looked.remembers (hv : h.Valid) (hL : op.Looked h (.enter q)) :
    op.Remembers h q := by
  have hname : ∀ {c : ℕ} {s : DbUser}, h.erase.findConn c = some s →
      h.nameOf c = some s.name := by
    intro c s hs
    rw [FriendHeap.nameOf_eq, hs]
    rfl
  cases hL with
  | @places c s r hs hr hne hst =>
    refine .place (hname hs) (FriendHeap.mem_users_of_findUser hr) hne (fun a ha => ?_)
      fun y hy hys => ?_
    · obtain ⟨x, hx, rfl⟩ := List.mem_map.1 (NodeList.mem_of_last ha)
      exact hv.lt_next _ x hx
    · rw [hv.statusOf_eq hr hy hys] at hst
      simp at hst
  | @accepts c s r b t x hs hr hne hl hx hst =>
    have hmem : x ∈ h.flist r.name := by simp [hl]
    refine .accept (hname hs) (FriendHeap.mem_users_of_findUser hr) hne (hv.lt_next _ x hmem)
      (fun y hy hyx => ?_) fun _ => ?_
    · rw [eq_of_sorted (hv.sorted _) hy hmem hyx, hx]
    · rw [hv.rep.rel_eq (Db.mem_of_findUser hr), hv.statusOf_eq hr hmem hx, hst]
  | @unlinks c s r b t x hs hr hne hl hx =>
    have hmem : x ∈ h.flist r.name := by simp [hl]
    have hsorted := hl ▸ hv.sorted r.name
    refine .unlink (hname hs) (FriendHeap.mem_users_of_findUser hr) hne (hv.lt_next _ x hmem)
      (fun y hy hyx => ?_) (fun a ha => ?_) fun y hy hyx => ?_
    · rw [eq_of_sorted (hv.sorted _) hy hmem hyx, hx]
    · obtain ⟨z, hz, rfl⟩ := List.mem_map.1 (NodeList.mem_of_last ha)
      exact (sorted_split hsorted).1 z hz
    · exact NodeList.le_last (sorted_left hsorted) (mem_of_sorted_of_lt hsorted (hl ▸ hy) hyx)

theorem FriendHeap.users_of_nameOf (hs : h.nameOf c = some n)
    (hr : m ∈ h.users.map UserHead.name) : ∃ s r, h.erase.findConn c = some s ∧ s.name = n ∧
      h.erase.findUser r.name = some r ∧ r.name = m := by
  rw [FriendHeap.nameOf_eq] at hs
  obtain ⟨s, hs', rfl⟩ := Option.map_eq_some_iff.1 hs
  rw [← FriendHeap.names_erase] at hr
  obtain ⟨r, hr'⟩ := Db.mem_names.1 hr
  obtain rfl := Db.name_of_findUser hr'
  exact ⟨s, r, hs', rfl, hr', rfl⟩

/-- If the nodes are current, the search would remember them again. -/
theorem FriendOp.Remembers.look (hR : op.Remembers h q) (hv : h.Valid) (hC : q.Current h) :
    op.look h = some (.enter q) := by
  cases hR with
  | @place c n m fprev hs hr hne hlt hnew =>
    obtain ⟨s, r, hs', rfl, hr', rfl⟩ := FriendHeap.users_of_nameOf hs hr
    obtain rfl : fprev = NodeList.last (h.flist r.name) := hC
    refine hv.look_place hs' hr' hne ?_
    rw [statusOf_eq_none, FriendHeap.flist_of_findUser hr']
    intro e he hes
    obtain ⟨y, hy, rfl⟩ := List.mem_map.1 he
    -- no node is above the last, and one for the requester would be
    obtain ⟨a, ha, hya⟩ := NodeList.le_last (hv.sorted _) hy
    exact absurd (hnew y hy hes a ha) (by omega)
  | @accept c n m fcur hs hr hne hlt hfriend hst =>
    obtain ⟨s, r, hs', rfl, hr', rfl⟩ := FriendHeap.users_of_nameOf hs hr
    have hrel := hst hC
    obtain ⟨x, hx, rfl⟩ := List.mem_map.1 hC
    obtain ⟨b, t, hl⟩ := List.append_of_mem hx
    have hxs := hfriend x hx rfl
    rw [hv.rep.rel_eq (Db.mem_of_findUser hr'), hv.statusOf_eq hr' hx hxs] at hrel
    exact hv.look_accept hs' hr' hne hl hxs (Option.some.inj hrel)
  | @unlink c n m fprev fcur hs hr hne hlt hfriend hprev hbetween =>
    obtain ⟨s, r, hs', rfl, hr', rfl⟩ := FriendHeap.users_of_nameOf hs hr
    obtain ⟨hcur, hcurp⟩ := hC
    obtain ⟨x, hx, rfl⟩ := List.mem_map.1 hcur
    obtain ⟨b, t, hl⟩ := List.append_of_mem hx
    have hsorted := hl ▸ hv.sorted r.name
    rw [← last_eq_of_between hsorted (fun a ha => ⟨hprev a ha, hl ▸ hcurp a ha⟩) fun y hy =>
      hbetween y (by simp [hl, hy]) ((sorted_split hsorted).1 y hy)]
    exact hv.look_unlink hs' hr' hne hl (hfriend x hx rfl)

/-- What was just looked up is current. -/
theorem FriendOp.Looked.current (hL : op.Looked h (.enter q)) : q.Current h := by
  cases hL with
  | places => rfl
  | accepts hs hr hne hl hx hst =>
    rw [FriendPlan.Current, hl]
    simp
  | unlinks hs hr hne hl hx =>
    refine ⟨by rw [hl]; simp, fun a ha => ?_⟩
    rw [hl, List.map_append]
    exact List.mem_append_left _ (NodeList.mem_of_last ha)

/-! ## Another handler's section -/

/-- An event of anyone but the requester leaves his request, or takes it away. -/
theorem Effect.rel_requested (hdb : db.Rep) (he : Effect lim db ev db' out)
    (hs : ∀ u, db.findConn ev.connfd = some u → u.name ≠ m) (hn : db.rel n m = some .requested) :
    db'.rel n m = some .requested ∨ db'.rel n m = none := by
  have hm : db.rel m n = some .toanswer := hdb.rel_requested.1 hn
  cases he with
  | rejected => exact Or.inl hn
  | ignored => exact Or.inl hn
  | listed => exact Or.inl hn
  | delivered => exact Or.inl hn
  | registered hv hnew => exact Or.inl ((Db.rel_append hnew).trans hn)
  | loggedIn => exact Or.inl (Db.rel_rebind.trans hn)
  | loggedOut => exact Or.inl (Db.rel_rebind.trans hn)
  | @asked c s r hsc hr hne hst =>
    rw [hdb.rel_ask (hdb.findUser_of_mem (Db.mem_of_findConn hsc)) hr hne hst,
      if_neg fun h => hs s hsc h.2.symm]
    split_ifs
    · exact Or.inl rfl
    · exact Or.inl hn
  | @befriended c s r hsc hr hne hst =>
    rw [hdb.rel_befriend (hdb.findUser_of_mem (Db.mem_of_findConn hsc)) hr hne hst,
      if_neg fun h => hs s hsc h.2.symm]
    split_ifs with heq
    · -- the requested user would have a request of the requester
      rw [heq.1, heq.2, hdb.rel_eq (Db.mem_of_findUser hr), hst] at hm
      simp at hm
    · exact Or.inl hn
  | @parted c s r st hsc hr hne hst =>
    rw [hdb.rel_part (hdb.findUser_of_mem (Db.mem_of_findConn hsc)) hr hne]
    split_ifs
    · exact Or.inr rfl
    · exact Or.inr rfl
    · exact Or.inl hn

/-- What is remembered stays true when the heap evolves, if a request to accept is not
answered by anyone else. -/
theorem FriendOp.Remembers.evolves (hR : op.Remembers h q) (hv' : h'.Valid) (hev : Evolves h h')
    (hrel : ∀ n m, h.nameOf op.connfd = some m → h.erase.rel n m = some .requested →
      h'.erase.rel n m = some .requested ∨ h'.erase.rel n m = none) : op.Remembers h' q := by
  have hname : ∀ {c : ℕ} {n : CStr}, h.nameOf c = some n → h'.nameOf c = some n := by
    intro c n hs
    rwa [FriendHeap.nameOf, hev.users]
  have hold : ∀ {n : CStr} {y : DbFriend × ℕ}, y ∈ h'.flist n → y.2 < h.next →
      ∃ x ∈ h.flist n, x.2 = y.2 ∧ x.1.friend = y.1.friend := fun hy hlt =>
    ((hev.nodes _).old _ hy).resolve_left (Nat.not_le.2 hlt)
  cases hR with
  | @place c n m fprev hs hr hne hlt hnew =>
    refine .place (hname hs) (hev.users ▸ hr) hne
      (fun a ha => (hlt a ha).trans_le hev.next) fun y hy hyn a ha => ?_
    rcases (hev.nodes m).old y hy with hlow | ⟨x, hx, hxy, hxf⟩
    · exact (hlt a ha).trans_le hlow
    · exact hxy ▸ hnew x hx (hxf.trans hyn) a ha
  | @accept c n m fcur hs hr hne hlt hfriend hst =>
    have hfriend' : ∀ y ∈ h'.flist m, y.2 = fcur → y.1.friend = some n := by
      intro y hy hyc
      obtain ⟨x, hx, hxy, hxf⟩ := hold hy (hyc ▸ hlt)
      rw [← hxf]
      exact hfriend x hx (hxy.trans hyc)
    refine .accept (hname hs) (hev.users ▸ hr) hne (hlt.trans_le hev.next) hfriend' fun hmem => ?_
    obtain ⟨y, hy, hyc⟩ := List.mem_map.1 hmem
    obtain ⟨x, hx, hxy, -⟩ := hold hy (hyc ▸ hlt)
    have hreq := hst (List.mem_map.2 ⟨x, hx, hxy.trans hyc⟩)
    refine (hrel m n hs hreq).resolve_right fun hnone => ?_
    -- an entry in the list says something
    obtain ⟨s, r, -, rfl, hr', rfl⟩ := FriendHeap.users_of_nameOf (hname hs) (hev.users ▸ hr)
    rw [hv'.rep.rel_eq (Db.mem_of_findUser hr'),
      hv'.statusOf_eq hr' hy (hfriend' y hy hyc)] at hnone
    simp at hnone
  | @unlink c n m fprev fcur hs hr hne hlt hfriend hprev hbetween =>
    refine .unlink (hname hs) (hev.users ▸ hr) hne (hlt.trans_le hev.next) (fun y hy hyc => ?_)
      hprev fun y hy hyc => ?_
    · obtain ⟨x, hx, hxy, hxf⟩ := hold hy (hyc ▸ hlt)
      rw [← hxf]
      exact hfriend x hx (hxy.trans hyc)
    · obtain ⟨x, hx, hxy, -⟩ := hold hy (hyc.trans hlt)
      exact hxy ▸ hbetween x hx (hxy ▸ hyc)

/-! ## A section that misses its nodes -/

theorem eq_of_tellUsers {f g : DbUser → ImpMsg} (ht : tellUsers c n m f g h = some (h', out)) :
    h' = h := by
  obtain ⟨s, -, ht⟩ := Option.bind_eq_some_iff.1 ht
  obtain ⟨r, -, ht⟩ := Option.bind_eq_some_iff.1 ht
  exact (Prod.mk.inj (Option.some.inj ht)).1.symm

/-- A request placed without the requested user's entry for `v`, whose own entry for him
stays, breaks the invariant. -/
theorem Db.Rep.not_rep_of_drop {v : DbUser} {lr : List DbFriend} (hdb : db.Rep)
    (hs : db.findUser s.name = some s) (hr : db.findUser r.name = some r)
    (hv : db.findUser v.name = some v) (hvr : v.name ≠ r.name)
    (hst : statusOf v.flist r.name = some st)
    (hdrop : v.name ≠ s.name → statusOf lr v.name = none) :
    ¬(db.setPair r.name s.name lr (s.flist ++ [⟨some r.name, .requested, requested_ne⟩])).Rep := by
  intro hrep
  have hv' := Db.findUser_setPair r.name s.name lr
    (s.flist ++ [⟨some r.name, .requested, requested_ne⟩]) hv
  rw [if_neg hvr] at hv'
  by_cases hvs : v.name = s.name
  · -- the requester's list then has two entries for the requested user
    obtain rfl := List.inj_on_of_nodup_map hdb.names (Db.mem_of_findUser hv)
      (Db.mem_of_findUser hs) hvs
    rw [if_pos rfl] at hv'
    obtain ⟨e, he, her, -⟩ := mem_of_statusOf hst
    have hnd := hrep.friends _ (Db.mem_of_findUser hv')
    rw [List.map_append, List.nodup_append] at hnd
    exact hnd.2.2 _ (List.mem_map_of_mem he) _ (by simp) her
  · -- the requested user's list has none for `v`
    rw [if_neg hvs] at hv'
    have hr' := Db.findUser_setPair r.name s.name lr
      (s.flist ++ [⟨some r.name, .requested, requested_ne⟩]) hr
    rw [if_pos rfl] at hr'
    have hcomm := hrep.rel_comm (n := r.name) (m := v.name)
    simp [Db.rel, hv', hr', hst, hdrop hvs] at hcomm

/-- A request placed behind an earlier node breaks the invariant. -/
theorem FriendHeap.Valid.not_rep_of_drop (hv : h.Valid) (hs : h.erase.findUser s.name = some s)
    (hr : h.erase.findUser r.name = some r) (hl : h.flist r.name = b ++ y :: t) :
    ¬(h.erase.setPair r.name s.name (b.map Prod.fst ++ [⟨some s.name, .toanswer, toanswer_ne⟩])
      (s.flist ++ [⟨some r.name, .requested, requested_ne⟩])).Rep := by
  have hrm := Db.mem_of_findUser hr
  have hy : y ∈ h.flist r.name := by simp [hl]
  have hyr : y.1 ∈ r.flist := by
    rw [FriendHeap.flist_of_findUser hr]
    exact List.mem_map_of_mem hy
  -- the friend of the first node that is dropped
  obtain ⟨v, hvm, hyv⟩ := hv.rep.resolves r hrm y.1 hyr
  have hvr : v.name ≠ r.name := fun heq => hv.rep.no_self r hrm y.1 hyr (heq ▸ hyv)
  have hv' := hv.rep.findUser_of_mem hvm
  have hst : statusOf v.flist r.name = some (mirror y.1.status) := by
    rw [statusOf_pair hv.rep hv' hr, hv.statusOf_eq hr hy hyv, Option.map_some]
  refine hv.rep.not_rep_of_drop hs hr hv' hvr hst fun hvs => statusOf_eq_none.2 fun e he hev => ?_
  rcases List.mem_append.1 he with he | he
  · have hnd := hv.rep.friends r hrm
    rw [FriendHeap.flist_of_findUser hr, hl, List.map_append, List.map_cons, List.map_append,
      List.map_cons, List.nodup_middle, List.nodup_cons, List.mem_append] at hnd
    exact hnd.1 (Or.inl (List.mem_map.2 ⟨e, he, hev.trans hyv.symm⟩))
  · rw [List.mem_singleton.1 he] at hev
    exact hvs (Option.some.inj hev).symm

/-- A section that does not meet its nodes reads freed memory, or breaks the invariant. -/
theorem FriendOp.Remembers.not_rep (hR : op.Remembers h q) (hv : h.Valid) (hC : ¬q.Current h)
    (he : op.enter q h = some (h', out)) : ¬h'.erase.Rep := by
  cases hR with
  | @place c n m fprev hs hr hne hlt hnew =>
    obtain ⟨s, r, hs', rfl, hr', rfl⟩ := FriendHeap.users_of_nameOf hs hr
    obtain ⟨h₁, hp, ht⟩ := Option.bind_eq_some_iff.1 he
    obtain rfl := eq_of_tellUsers ht
    have hsu := hv.rep.findUser_of_mem (Db.mem_of_findConn hs')
    rw [placeNodes_eq hsu hr' hne] at hp
    obtain ⟨l, hl, rfl⟩ := Option.map_eq_some_iff.1 hp
    obtain ⟨⟨b, t⟩, hc, rfl⟩ := Option.map_eq_some_iff.1 hl
    obtain ⟨hbt, hlast⟩ := NodeList.eq_of_cut hc
    cases t with
    | nil =>
      have hcur : fprev = NodeList.last (h.flist r.name) := by rw [hbt, List.append_nil, hlast]
      exact absurd hcur hC
    | cons y t =>
      have herase := FriendHeap.erase_setFlist_setFlist (h := h) hne.symm
        (b ++ [(⟨some s.name, .toanswer, toanswer_ne⟩, h.next)])
        (h.flist s.name ++ [(⟨some r.name, .requested, requested_ne⟩, h.next + 1)])
      have hdrop := hv.not_rep_of_drop hsu hr' hbt
      simp only [List.map_append, List.map_cons, List.map_nil,
        ← FriendHeap.flist_of_findConn hs'] at herase
      exact fun hrep => hdrop (herase ▸ hrep)
  | @accept c n m fcur =>
    have hmem : fcur ∉ (h.flist m).map Prod.snd := hC
    obtain ⟨h₁, hp, -⟩ := Option.bind_eq_some_iff.1 he
    rw [acceptNodes, if_neg hmem] at hp
    simp at hp
  | @unlink c n m fprev fcur =>
    obtain ⟨h₁, hp, -⟩ := Option.bind_eq_some_iff.1 he
    obtain ⟨l, hl, -⟩ := Option.bind_eq_some_iff.1 hp
    exact absurd (NodeList.mem_of_unlink hl) hC

end Nodes

/-! ## Any number of handlers -/

section Runs

variable {ι : Type*} {lim : ImpLimits} {db : Db} {ops : ι → FriendOp} {c c' : FriendConf ι}
  {i j : ι} {o out : List Sent} {sched : List ι}

/-- The invariant of a run whose sections meet their nodes. -/
structure FriendInv (ops : ι → FriendOp) (c : FriendConf ι) : Prop where
  valid : c.shared.Valid
  plans : ∀ i q, i ∉ c.finished → c.plans i = some q → (ops i).Remembers c.shared q

theorem friendInv_start (hdb : db.Rep) : FriendInv ops (.start (.start db)) :=
  ⟨FriendHeap.valid_start hdb, fun _ _ _ hp => by simp [Conf.start] at hp⟩

/-- A handler whose nodes are current would remember them again. -/
theorem FriendInv.repeats (hI : FriendInv ops c) (hC : NodesCurrent c i) :
    Repeats (fun i => (ops i).look) c i :=
  fun hf q hp => (hI.plans i q hf hp).look hI.valid (hC hf q hp)

theorem FriendOp.connfd_event (op : FriendOp) : op.event.connfd = op.connfd := by
  cases op <;> rfl

/-- Users of different connections have different names. -/
theorem FriendHeap.Valid.name_ne {h : FriendHeap} (hv : h.Valid) {a b : ℕ} (hab : a ≠ b)
    {n : CStr} (hn : h.nameOf a = some n) {u : DbUser} (hu : h.erase.findConn b = some u) :
    u.name ≠ n := by
  rw [FriendHeap.nameOf_eq] at hn
  obtain ⟨v, hv', rfl⟩ := Option.map_eq_some_iff.1 hn
  intro heq
  obtain rfl := List.inj_on_of_nodup_map hv.rep.names (Db.mem_of_findConn hu)
    (Db.mem_of_findConn hv') heq
  have ha := Db.connfd_of_findConn hv'
  have hb := Db.connfd_of_findConn hu
  omega

/-- A handler that is not interrupted is the one of `Ims/Handlers`. -/
theorem FriendHeap.Valid.atomic {h h' : FriendHeap} (hv : h.Valid)
    (hs : TwoPhase.atomic (fun i => (ops i).look) (fun i => (ops i).enter) h i = some (h', out)) :
    h'.Valid ∧ step lim h.erase (ops i).event = some (h'.erase, out) := by
  obtain ⟨l, hl, hL⟩ := hv.looked (ops i)
  simp only [TwoPhase.atomic, hl] at hs
  cases l with
  | answer out' =>
    obtain ⟨rfl, rfl⟩ : h = h' ∧ out' = out := by simpa using hs
    exact ⟨hv, hL.answer lim⟩
  | enter q =>
    obtain ⟨h₁, out₁, he, hstep, hv', -⟩ := hL.enter hv lim
    obtain ⟨rfl, rfl⟩ : h₁ = h' ∧ out₁ = out := by simpa [he] using hs
    exact ⟨hv', hstep⟩

variable [DecidableEq ι]

theorem FriendInv.step (hinj : Function.Injective fun i => (ops i).connfd)
    (hI : FriendInv ops c) (hC : NodesCurrent c i) (hs : friendStep ops c i = some (c', o)) :
    FriendInv ops c' := by
  have henter : ∀ q h' out, i ∉ c.finished → c.plans i = some q →
      (ops i).enter q c.shared = some (h', out) → h'.Valid ∧ ∀ j p, j ≠ i →
        (ops j).Remembers c.shared p → (ops j).Remembers h' p := by
    intro q h' out hf hp he
    have hL := hI.valid.looked_of_look (hI.repeats hC hf q hp)
    obtain ⟨h₁, out₁, he₁, hstep, hv', hev⟩ := hL.enter hI.valid impLimits
    obtain ⟨rfl, rfl⟩ : h₁ = h' ∧ out₁ = out := by simpa [he] using he₁.symm
    refine ⟨hv', fun j p hji hR => hR.evolves hv' hev fun n m hm hreq => ?_⟩
    refine (effect_of_step hI.valid.rep hstep).rel_requested hI.valid.rep (fun u hu => ?_) hreq
    rw [FriendOp.connfd_event] at hu
    exact hI.valid.name_ne (fun heq => hji (hinj heq)) hm hu
  obtain ⟨valid, plans⟩ := TwoPhase.invariant_step (P := fun i q h => (ops i).Remembers h q)
    hI.valid hI.plans (fun q hl => (hI.valid.looked_of_look hl).remembers hI.valid) henter hs
  exact ⟨valid, plans⟩

/-- A step that meets its nodes succeeds. -/
theorem FriendInv.total (hI : FriendInv ops c) (hC : NodesCurrent c i) :
    ∃ c' o, friendStep ops c i = some (c', o) := by
  by_cases hf : i ∈ c.finished
  · exact ⟨c, [], TwoPhase.step_rests hf⟩
  · cases hp : c.plans i with
    | none =>
      obtain ⟨l, hl, -⟩ := hI.valid.looked (ops i)
      rw [friendStep, TwoPhase.step_looks hf hp, hl]
      cases l <;> exact ⟨_, _, rfl⟩
    | some q =>
      have hL := hI.valid.looked_of_look (hI.repeats hC hf q hp)
      obtain ⟨h', o, he, -⟩ := hL.enter hI.valid impLimits
      rw [friendStep, TwoPhase.step_enters hf hp, he]
      exact ⟨_, _, rfl⟩

/-- If every section meets its nodes, no handler reads freed memory, and the handlers do
what they do one after the other, in the order they finish. -/
theorem friendOps_serial (lim : ImpLimits) (hdb : db.Rep)
    (hinj : Function.Injective fun i => (ops i).connfd)
    (hC : Machine.AllSteps (friendStep ops) NodesCurrent (.start (.start db)) sched) :
    ∃ c out, Machine.run (friendStep ops) (.start (.start db)) sched = some (c, out) ∧
      c.shared.Valid ∧ Machine.run (step lim) db (c.finished.map fun i => (ops i).event) =
        some (c.shared.erase, out) := by
  have htotal : ∀ (c : FriendConf ι) (i : ι), FriendInv ops c → NodesCurrent c i →
      ∃ c' o, friendStep ops c i = some (c', o) ∧ FriendInv ops c' := by
    intro c i hI hC
    obtain ⟨c', o, hs⟩ := hI.total hC
    exact ⟨c', o, hs, hI.step hinj hC hs⟩
  obtain ⟨c, out, hr, hI⟩ := Machine.run_total_of_allSteps htotal (friendInv_start hdb) hC
  have hrep : Machine.AllSteps (friendStep ops) (Repeats fun i => (ops i).look)
      (.start (.start db)) sched :=
    hC.imp (fun c i (hI : FriendInv ops c) hC => hI.repeats hC)
      (fun _ _ _ _ hI hC hs => hI.step hinj hC hs) (friendInv_start hdb)
  obtain ⟨order, hfin, hrun⟩ := TwoPhase.run_serial hrep hr
  obtain rfl : c.finished = order := by simpa [Conf.start] using hfin
  refine ⟨c, out, hr, hI.valid, ?_⟩
  have hrun' : Machine.run (fun d i => step lim d (ops i).event) (FriendHeap.start db).erase
      c.finished = some (c.shared.erase, out) :=
    Machine.run_refines FriendHeap.erase (fun _ _ _ _ hv hs => hv.atomic hs)
      (FriendHeap.valid_start hdb) hrun
  rwa [Machine.run_map, ← FriendHeap.erase_start hdb]

end Runs

/-! ## Two handlers -/

/-- The same users, with the same entries in their friend lists, in any order. -/
def SameFriends (db db' : Db) : Prop :=
  List.Forall₂ (fun u v => u.name = v.name ∧ u.active = v.active ∧ u.connfd = v.connfd ∧
    u.flist.Perm v.flist) db.users db'.users

/-- The handlers run without reading freed memory, and leave a database with the
representation invariant that handling one after the other, in some order, leaves too. -/
def Consistent (lim : ImpLimits) (db : Db) (ops : Fin 2 → FriendOp) (sched : List (Fin 2)) : Prop :=
  ∃ c out, Machine.run (friendStep ops) (.start (.start db)) sched = some (c, out) ∧
    c.shared.erase.Rep ∧ ∃ order : List (Fin 2), order.Perm [0, 1] ∧ ∃ db' out',
      Machine.run (step lim) db (order.map fun i => (ops i).event) = some (db', out') ∧
        SameFriends db' c.shared.erase

section Two

variable {lim : ImpLimits} {db : Db} {ops : Fin 2 → FriendOp} {sched : List (Fin 2)}

theorem sameFriends_refl (db : Db) : SameFriends db db :=
  List.forall₂_same.2 fun _ _ => ⟨rfl, rfl, rfl, List.Perm.refl _⟩

/-- Handlers that each take their two steps, and whose sections meet their nodes, leave
what they leave one after the other. -/
theorem consistent_of_nodesCurrent (hdb : db.Rep)
    (hinj : Function.Injective fun i => (ops i).connfd) (hsched : ∀ i, 2 ≤ sched.count i)
    (hC : Machine.AllSteps (friendStep ops) NodesCurrent (.start (.start db)) sched) :
    Consistent lim db ops sched := by
  obtain ⟨c, out, hr, hv, hrun⟩ := friendOps_serial lim hdb hinj hC
  have hmem : ∀ i, i ∈ c.finished := fun i =>
    TwoPhase.mem_finished_of_run (by simpa [Conf.start, Conf.remaining] using hsched i) hr
  have hall : ∀ i : Fin 2, i ∈ [0, 1] := by decide
  refine ⟨c, out, hr, hv.rep, c.finished, ?_, _, _, hrun, sameFriends_refl _⟩
  rw [List.perm_ext_iff_of_nodup (TwoPhase.nodup_finished List.nodup_nil hr) (by decide)]
  exact fun i => iff_of_true (hmem i) (hall i)

/-- The first section that does not meet its nodes is the last of the two, and breaks the
invariant. -/
theorem nodesCurrent_of_consistent (hdb : db.Rep)
    (hinj : Function.Injective fun i => (ops i).connfd) (hcons : Consistent lim db ops sched) :
    Machine.AllSteps (friendStep ops) NodesCurrent (.start (.start db)) sched := by
  obtain ⟨c, out, hr, hrep, -⟩ := hcons
  by_contra hC
  obtain ⟨pre, i, post, c₁, o₁, rfl, hr₁, hpre, hn⟩ := Machine.exists_of_not_allSteps hC
  obtain ⟨c₁', o₁', o₂, hr₁', hr₂, -⟩ := Machine.run_append_eq_some.1 hr
  obtain ⟨rfl, rfl⟩ : c₁' = c₁ ∧ o₁' = o₁ := by simpa [hr₁'] using hr₁
  obtain ⟨c₂, o₃, o₄, hs, hr₃, -⟩ := Machine.run_cons_eq_some.1 hr₂
  have hI : FriendInv ops c₁' := Machine.run_invariant_of_allSteps
    (fun _ _ _ _ hI hC hs => hI.step hinj hC hs) (friendInv_start hdb) hpre hr₁
  obtain ⟨hf, q, hp, hq⟩ : i ∉ c₁'.finished ∧ ∃ q, c₁'.plans i = some q ∧
      ¬q.Current c₁'.shared := by
    simpa [NodesCurrent] using hn
  -- otherwise the section would follow its own search
  obtain ⟨j, hj⟩ : ∃ j, j ∈ c₁'.finished := by
    refine List.exists_mem_of_ne_nil _ fun hnil => hq ?_
    exact (hI.valid.looked_of_look (TwoPhase.look_of_finished_eq_nil hr₁ hnil hp)).current
  rw [friendStep, TwoPhase.step_enters hf hp] at hs
  obtain ⟨⟨h', o⟩, he, hc⟩ := Option.map_eq_some_iff.1 hs
  obtain ⟨rfl, rfl⟩ := Prod.mk.inj hc
  have hall : ∀ k, k ∈ c₁'.finished ++ [i] := by
    intro k
    have hij : i ≠ j := fun heq => hf (heq ▸ hj)
    have hk : k = i ∨ k = j := by omega
    rcases hk with rfl | rfl
    · simp
    · exact List.mem_append_left _ hj
  obtain rfl := TwoPhase.eq_of_run_of_finished hall hr₃
  exact (hI.plans i q hf hp).not_rep hI.valid hq he hrep

/-- Two handlers of different connections leave a consistent database, for every
interleaving of their steps, exactly if each section meets the nodes its search
remembered. -/
theorem friendOps_consistent_iff (hdb : db.Rep)
    (hinj : Function.Injective fun i => (ops i).connfd) (hsched : ∀ i, 2 ≤ sched.count i) :
    Consistent lim db ops sched ↔
      Machine.AllSteps (friendStep ops) NodesCurrent (.start (.start db)) sched :=
  ⟨nodesCurrent_of_consistent hdb hinj, consistent_of_nodesCurrent hdb hinj hsched⟩

/-- Alice and Bob ask each other. -/
def mutualRequests : Fin 2 → FriendOp
  | 0 => .request "bob".toList 4
  | 1 => .request "alice".toList 5

theorem mutualRequests_connfd : Function.Injective fun i => (mutualRequests i).connfd := by
  rw [Function.Injective]
  decide

/-- If both search before either enters its section, Alice's entry for Bob is replaced by
another, and Bob has two for her. -/
theorem friendRequest_mutual :
    (Db.duo [] []).Rep ∧ (∀ i : Fin 2, 2 ≤ [0, 1, 0, 1].count i) ∧
      (Function.Injective fun i => (mutualRequests i).connfd) ∧
      ¬Consistent impLimits (Db.duo [] []) mutualRequests [0, 1, 0, 1] := by
  have hrun : (Machine.run (friendStep mutualRequests) (.start (.start (Db.duo [] [])))
      [0, 1, 0, 1]).map (fun r => r.1.shared.erase) =
        some (Db.duo [⟨some "bob".toList, .toanswer, toanswer_ne⟩]
          [⟨some "alice".toList, .toanswer, toanswer_ne⟩,
            ⟨some "alice".toList, .requested, requested_ne⟩]) := by
    decide
  refine ⟨by decide, by decide, mutualRequests_connfd, ?_⟩
  rintro ⟨c, out, hr, hrep, -⟩
  rw [hr, Option.map_some, Option.some.injEq] at hrun
  rw [hrun] at hrep
  exact absurd hrep (by decide)

/-- The second searches after the first section, and accepts. -/
theorem friendRequest_answered :
    Consistent impLimits (Db.duo [] []) mutualRequests [0, 0, 1, 1] :=
  (friendOps_consistent_iff (by decide) mutualRequests_connfd (by decide)).2 (by decide)

end Two

end Ims

end ClassProjects
