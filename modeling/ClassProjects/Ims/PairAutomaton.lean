import ClassProjects.Ims.HandlerSpec
import Mathlib.Data.Fintype.Basic

/-!
# Friendship as one automaton per pair of users

Whatever the lists hold, a friendship concerns two users. `PairRel` is what there can be
between a first and a second user, and `PairRel.step` what a request or a removal by one
of them does to it. The database refines this : along any run, what the lists of two
users say (`Db.pairRel`) follows the automaton of the pair on just the operations between
the two (`pairOps`), and every such operation is answered as the automaton says
(`pair_refines`).

A request is never undone by other requests (`PairRel.askedBy_step_request`), so once two
users have both asked they are friends, in whatever order the requests came.
-/

namespace ClassProjects

namespace Ims

/-! ## The automaton -/

/-- The relation between two users, seen from the first. -/
inductive PairRel
  /-- Neither asked. -/
  | none
  /-- The first asked the second. -/
  | asked
  /-- The second asked the first. -/
  | askedBack
  | friends
deriving DecidableEq

/-- An operation of one of the two on the other. -/
inductive PairOp
  | request (byFirst : Bool)
  | remove (byFirst : Bool)
deriving DecidableEq

namespace PairRel

/-- What an operation does. -/
def step : PairRel → PairOp → PairRel
  | .none, .request true => .asked
  | .none, .request false => .askedBack
  | .asked, .request false => .friends
  | .askedBack, .request true => .friends
  | r, .request _ => r
  | _, .remove _ => .none

/-- The error an operation is answered with, if it does nothing. -/
def answer : PairRel → PairOp → Option ImpError
  | .asked, .request true => some .requestedAlready
  | .askedBack, .request false => some .requestedAlready
  | .friends, .request _ => some .friendAlready
  | .none, .remove _ => some .notFriend
  | _, _ => Option.none

/-- The relation seen from the second user. -/
def swap : PairRel → PairRel
  | .asked => .askedBack
  | .askedBack => .asked
  | r => r

/-- The user has asked the other one, and was not removed since. -/
def askedBy : PairRel → Bool → Bool
  | .none, _ => false
  | .asked, byFirst => byFirst
  | .askedBack, byFirst => !byFirst
  | .friends, _ => true

end PairRel

/-- The operation seen from the second user. -/
def PairOp.swap : PairOp → PairOp
  | .request byFirst => .request !byFirst
  | .remove byFirst => .remove !byFirst

/-- The target among the two users. -/
def PairOp.target (a b : CStr) : PairOp → CStr
  | .request byFirst => if byFirst then b else a
  | .remove byFirst => if byFirst then b else a

namespace PairRel

variable {r : PairRel} {p q : Bool} {op : PairOp}

theorem step_swap : (r.step op).swap = r.swap.step op.swap := by
  cases r <;> rcases op with (_ | _) | (_ | _) <;> rfl

theorem answer_swap : r.swap.answer op.swap = r.answer op := by
  cases r <;> rcases op with (_ | _) | (_ | _) <;> rfl

theorem askedBy_step_request : (r.step (.request p)).askedBy q = (r.askedBy q || p == q) := by
  cases r <;> cases p <;> cases q <;> rfl

theorem eq_friends (h : ∀ p, r.askedBy p = true) : r = .friends := by
  cases r with
  | none => simpa [askedBy] using h true
  | asked => simpa [askedBy] using h false
  | askedBack => simpa [askedBy] using h true
  | friends => rfl

/-- Without removals, whoever asked before or asks now has asked at the end. -/
theorem askedBy_foldl (ops : List PairOp) (hrem : ∀ p, .remove p ∉ ops) :
    (ops.foldl step r).askedBy q = (r.askedBy q || decide (.request q ∈ ops)) := by
  induction ops generalizing r with
  | nil => simp
  | cons op ops ih =>
    have hrem' : ∀ p, .remove p ∉ ops := fun p hp => hrem p (List.mem_cons_of_mem _ hp)
    cases op with
    | remove p => exact absurd List.mem_cons_self (hrem p)
    | request p =>
      rw [List.foldl_cons, ih hrem', askedBy_step_request]
      by_cases hpq : p = q
      · simp [hpq]
      · simp [beq_false_of_ne hpq, Ne.symm hpq]

/-- Two users who both ask, and do not remove each other, end as friends. -/
theorem foldl_eq_friends {ops : List PairOp} (hreq : ∀ p, .request p ∈ ops)
    (hrem : ∀ p, .remove p ∉ ops) : ops.foldl step r = .friends :=
  eq_friends fun p => by simp [askedBy_foldl ops hrem, hreq p]

end PairRel

/-! ## The database as a pair automaton -/

/-- What the list of `a` says about `b`, as a relation of the two. -/
def Db.pairRel (db : Db) (a b : CStr) : PairRel :=
  match db.rel a b with
  | some .requested => .asked
  | some .toanswer => .askedBack
  | some .yes => .friends
  | _ => .none

/-- The operation of an event on the pair, if the user its connection is bound to and the
user it names are `a` and `b` in some order. -/
def pairOps (a b : CStr) (db : Db) : Event → List PairOp
  | .msg c (some (.op (.friendRequest n))) =>
    match db.findConn c, db.findUser n with
    | some s, some r =>
      if s.name = a ∧ r.name = b then [.request true]
      else if s.name = b ∧ r.name = a then [.request false] else []
    | _, _ => []
  | .msg c (some (.op (.friendRemove n))) =>
    match db.findConn c, db.findUser n with
    | some s, some r =>
      if s.name = a ∧ r.name = b then [.remove true]
      else if s.name = b ∧ r.name = a then [.remove false] else []
    | _, _ => []
  | _ => []

/-- The event is answered as the pair's automaton says : by its error alone, with the
database as it was, or without an error. -/
def Answered (lim : ImpLimits) (a b : CStr) (db : Db) (ev : Event) : Prop :=
  ∀ op ∈ pairOps a b db ev, ∀ db' out, step lim db ev = some (db', out) →
    match (db.pairRel a b).answer op with
    | some et => db' = db ∧ out = [⟨ev.connfd, .error et (some (op.target a b))⟩]
    | none => ∀ m ∈ out, ∀ et name, m.msg ≠ .error et name

variable {lim : ImpLimits} {db db' : Db} {s r : DbUser} {a b n m : CStr} {c : ℕ}
  {out : List Sent} {ev : Event}

theorem Db.Rep.pairRel_swap (h : db.Rep) : db.pairRel b a = (db.pairRel a b).swap := by
  rw [Db.pairRel, Db.pairRel, h.rel_comm]
  cases hs : db.rel a b with
  | none => rfl
  | some st => cases st <;> rfl

theorem no_error_tellBoth {m₁ m₂ : ImpMsg} (h₁ : ∀ et name, m₁ ≠ .error et name)
    (h₂ : ∀ et name, m₂ ≠ .error et name) :
    ∀ m ∈ tellBoth c r m₁ m₂, ∀ et name, m.msg ≠ .error et name := by
  intro m hm
  unfold tellBoth at hm
  split_ifs at hm <;> simp only [List.mem_cons, List.not_mem_nil, or_false] at hm
  · rcases hm with rfl | rfl
    · exact h₁
    · exact h₂
  · rw [hm]
    exact h₁

/-- The relation mirrors the entry that the handlers look at. -/
theorem Db.Rep.rel_eq_mirror (h : db.Rep) (hs : db.findConn c = some s)
    (hr : db.findUser r.name = some r) :
    db.rel s.name r.name = (statusOf r.flist s.name).map mirror := by
  rw [← statusOf_pair h (h.findUser_of_mem (Db.mem_of_findConn hs)) hr,
    h.rel_eq (Db.mem_of_findConn hs)]

/-- A request, seen from the requester. -/
theorem friendRequest_pair (h : db.Rep) (hs : db.findConn c = some s)
    (hr : db.findUser n = some r) (hne : s.name ≠ n)
    (hstep : step lim db (.msg c (some (.op (.friendRequest n)))) = some (db', out)) :
    db'.pairRel s.name n = (db.pairRel s.name n).step (.request true) ∧
      match (db.pairRel s.name n).answer (.request true) with
      | some et => db' = db ∧ out = [⟨c, .error et (some n)⟩]
      | none => ∀ m ∈ out, ∀ et name, m.msg ≠ .error et name := by
  have hsm := h.findUser_of_mem (Db.mem_of_findConn hs)
  have hstep' := friendRequest_eq h hs hr hne
  obtain rfl := Db.name_of_findUser hr
  have hrel := h.rel_eq_mirror hs hr
  simp only [step, handleMsg, handleOp, hstep', Option.map_some, Option.some.injEq,
    Prod.mk.injEq] at hstep
  obtain ⟨rfl, rfl⟩ := hstep
  cases hst : statusOf r.flist s.name with
  | none =>
    have hafter : (db.ask r s).rel s.name r.name = some .requested := by
      rw [h.rel_ask hsm hr hne hst]
      simp [hne]
    simp only [Db.pairRel, hrel, hst, hafter, Option.map_none]
    exact ⟨rfl, no_error_tellBoth (by simp) (by simp)⟩
  | some st =>
    simp only [Db.pairRel, hrel, hst, Option.map_some]
    cases st with
    | not => exact absurd hst statusOf_ne_not
    | requested =>
      have hafter : (db.befriend r s).rel s.name r.name = some .yes := by
        rw [h.rel_befriend hsm hr hne hst]
        simp [hne]
      simp only [hafter]
      exact ⟨rfl, no_error_tellBoth (by simp) (by simp)⟩
    | toanswer => simp [answerError, hrel, hst, mirror, PairRel.step, PairRel.answer]
    | yes => simp [answerError, hrel, hst, mirror, PairRel.step, PairRel.answer]

/-- A removal, seen from the requester. -/
theorem friendRemove_pair (h : db.Rep) (hs : db.findConn c = some s)
    (hr : db.findUser n = some r) (hne : s.name ≠ n)
    (hstep : step lim db (.msg c (some (.op (.friendRemove n)))) = some (db', out)) :
    db'.pairRel s.name n = (db.pairRel s.name n).step (.remove true) ∧
      match (db.pairRel s.name n).answer (.remove true) with
      | some et => db' = db ∧ out = [⟨c, .error et (some n)⟩]
      | none => ∀ m ∈ out, ∀ et name, m.msg ≠ .error et name := by
  have hsm := h.findUser_of_mem (Db.mem_of_findConn hs)
  have hstep' := friendRemove_eq h hs hr hne
  obtain rfl := Db.name_of_findUser hr
  have hrel := h.rel_eq_mirror hs hr
  have hafter : (db.part r s).rel s.name r.name = none := by
    rw [h.rel_part hsm hr hne]
    simp [hne]
  simp only [step, handleMsg, handleOp, hstep', Option.map_some, Option.some.injEq,
    Prod.mk.injEq] at hstep
  obtain ⟨rfl, rfl⟩ := hstep
  cases hst : statusOf r.flist s.name with
  | none => simp [answerError, Db.pairRel, hrel, hst, PairRel.step, PairRel.answer]
  | some st =>
    simp only [Db.pairRel, hrel, hst, hafter, Option.map_some]
    cases st with
    | not => exact absurd hst statusOf_ne_not
    | requested => exact ⟨rfl, no_error_tellBoth (by simp) (by simp)⟩
    | toanswer => exact ⟨rfl, no_error_tellBoth (by simp) (by simp)⟩
    | yes => exact ⟨rfl, no_error_tellBoth (by simp) (by simp)⟩

/-- An event that is no operation between the two users leaves their relation alone. -/
theorem rel_of_pairOps_eq_nil (h : db.Rep) (hops : pairOps a b db ev = [])
    (hstep : step lim db ev = some (db', out)) : db'.rel a b = db.rel a b := by
  cases effect_of_step h hstep with
  | rejected => rfl
  | ignored => rfl
  | registered _ hn => exact Db.rel_append hn
  | loggedIn => exact Db.rel_rebind
  | loggedOut => exact Db.rel_rebind
  | listed => rfl
  | delivered => rfl
  | asked hs hr hne hst =>
    rw [h.rel_ask (h.findUser_of_mem (Db.mem_of_findConn hs)) hr hne hst]
    simp only [pairOps, hs, hr] at hops
    grind
  | befriended hs hr hne hst =>
    rw [h.rel_befriend (h.findUser_of_mem (Db.mem_of_findConn hs)) hr hne hst]
    simp only [pairOps, hs, hr] at hops
    grind
  | parted hs hr hne =>
    rw [h.rel_part (h.findUser_of_mem (Db.mem_of_findConn hs)) hr hne]
    simp only [pairOps, hs, hr] at hops
    grind

/-- The events that operate on the pair. -/
theorem pairOps_cases (a b : CStr) (db : Db) (ev : Event) : pairOps a b db ev = [] ∨
    ∃ c s r, db.findConn c = some s ∧ db.findUser r.name = some r ∧
      ((s.name = a ∧ r.name = b ∧
          (ev = .msg c (some (.op (.friendRequest r.name))) ∧ pairOps a b db ev = [.request true] ∨
            ev = .msg c (some (.op (.friendRemove r.name))) ∧ pairOps a b db ev = [.remove true])) ∨
        (s.name = b ∧ r.name = a ∧
          (ev = .msg c (some (.op (.friendRequest r.name))) ∧ pairOps a b db ev = [.request false] ∨
            ev = .msg c (some (.op (.friendRemove r.name))) ∧
              pairOps a b db ev = [.remove false]))) := by
  unfold pairOps
  split
  · split
    · rename_i c n _ _ s r hs hr
      obtain rfl := Db.name_of_findUser hr
      grind
    · exact Or.inl rfl
  · split
    · rename_i c n _ _ s r hs hr
      obtain rfl := Db.name_of_findUser hr
      grind
    · exact Or.inl rfl
  · exact Or.inl rfl

/-- One step follows the automaton of the pair, and is answered as it says. -/
theorem pair_step (h : db.Rep) (hab : a ≠ b) :
    (∀ db' out, step lim db ev = some (db', out) →
      db'.pairRel a b = (pairOps a b db ev).foldl PairRel.step (db.pairRel a b)) ∧
    Answered lim a b db ev := by
  -- the operations of `b` on `a` are seen from `b`
  have hswap : ∀ {db' : Db} {op}, db'.Rep → db'.pairRel b a = (db.pairRel b a).step op →
      db'.pairRel a b = (db.pairRel a b).step op.swap := by
    intro db' op h' hba
    rw [h'.pairRel_swap, hba, PairRel.step_swap, ← h.pairRel_swap]
  have hanswer : ∀ op, (db.pairRel b a).answer op = (db.pairRel a b).answer op.swap := by
    intro op
    rw [← PairRel.answer_swap, ← h.pairRel_swap]
  unfold Answered
  rcases pairOps_cases a b db ev with
    hops | ⟨c, s, r, hs, hr, ⟨rfl, rfl, hev⟩ | ⟨rfl, rfl, hev⟩⟩
  · rw [hops]
    refine ⟨fun db' out hstep => ?_, by simp⟩
    rw [Db.pairRel, rel_of_pairOps_eq_nil h hops hstep]
    rfl
  · rcases hev with ⟨rfl, hops⟩ | ⟨rfl, hops⟩ <;>
      simp only [hops, List.foldl_cons, List.foldl_nil, List.mem_singleton, forall_eq]
    · exact ⟨fun db' out hstep => (friendRequest_pair h hs hr hab hstep).1,
        fun db' out hstep => (friendRequest_pair h hs hr hab hstep).2⟩
    · exact ⟨fun db' out hstep => (friendRemove_pair h hs hr hab hstep).1,
        fun db' out hstep => (friendRemove_pair h hs hr hab hstep).2⟩
  · rcases hev with ⟨rfl, hops⟩ | ⟨rfl, hops⟩ <;>
      simp only [hops, List.foldl_cons, List.foldl_nil, List.mem_singleton, forall_eq]
    · refine ⟨fun db' out hstep => ?_, fun db' out hstep => ?_⟩
      · exact hswap (rep_step h hstep) (friendRequest_pair h hs hr hab.symm hstep).1
      · have := (friendRequest_pair h hs hr hab.symm hstep).2
        rwa [hanswer] at this
    · refine ⟨fun db' out hstep => ?_, fun db' out hstep => ?_⟩
      · exact hswap (rep_step h hstep) (friendRemove_pair h hs hr hab.symm hstep).1
      · have := (friendRemove_pair h hs hr hab.symm hstep).2
        rwa [hanswer] at this

/-! ## Runs -/

/-- The operations on the pair along a run. -/
def pairTrace (lim : ImpLimits) (a b : CStr) : Db → List Event → List PairOp :=
  Machine.trace (step lim) (pairOps a b)

theorem pairOps_swap (hab : a ≠ b) : pairOps b a db ev = (pairOps a b db ev).map PairOp.swap := by
  unfold pairOps
  split
  · split
    · grind [PairOp.swap]
    · rfl
  · split
    · grind [PairOp.swap]
    · rfl
  · rfl

theorem pairTrace_swap (hab : a ≠ b) (evs : List Event) :
    pairTrace lim b a db evs = (pairTrace lim a b db evs).map PairOp.swap := by
  rw [pairTrace, pairTrace, ← Machine.trace_map]
  congr 1
  funext db ev
  exact pairOps_swap hab

/-- A run takes the relation of two users where their automaton does. -/
theorem pairRel_of_run (h : db.Rep) (hab : a ≠ b) {evs : List Event}
    (hrun : Machine.run (step lim) db evs = some (db', out)) :
    db'.pairRel a b = (pairTrace lim a b db evs).foldl PairRel.step (db.pairRel a b) :=
  Machine.run_simulates (fun db => db.pairRel a b) PairRel.step
    (fun _ _ _ _ h hstep => rep_step h hstep)
    (fun _ _ db' out h hstep => (pair_step h hab).1 db' out hstep) h hrun

/-- Every operation on the pair is answered as the automaton says. -/
theorem answered_of_run (h : db.Rep) (hab : a ≠ b) (evs : List Event) :
    Machine.AllSteps (step lim) (Answered lim a b) db evs := by
  induction evs generalizing db with
  | nil => trivial
  | cons ev evs ih => exact ⟨(pair_step h hab).2, fun db' out hstep => ih (rep_step h hstep)⟩

/-- The database refines one automaton per pair of users : every run succeeds and takes
the relation of two users where their automaton goes on the operations between them, each
answered as the automaton says. Users who all request each other, and remove none of each
other, all end as friends. -/
theorem pair_refines (h : db.Rep) (evs : List Event) :
    ∃ db' out, Machine.run (step lim) db evs = some (db', out) ∧
      (∀ a b, a ≠ b →
        db'.pairRel a b = (pairTrace lim a b db evs).foldl PairRel.step (db.pairRel a b) ∧
          Machine.AllSteps (step lim) (Answered lim a b) db evs) ∧
      ∀ U : Finset CStr,
        (∀ a ∈ U, ∀ b ∈ U, a ≠ b → .request true ∈ pairTrace lim a b db evs ∧
          ∀ p, .remove p ∉ pairTrace lim a b db evs) →
        ∀ a ∈ U, ∀ b ∈ U, a ≠ b → db'.pairRel a b = .friends := by
  obtain ⟨db', out, hrun, -⟩ := Machine.run_total (fun _ ev hdb => step_total hdb lim ev) h evs
  refine ⟨db', out, hrun, fun a b hab => ⟨pairRel_of_run h hab hrun, answered_of_run h hab evs⟩,
    fun U hall a ha b hb hab => ?_⟩
  rw [pairRel_of_run h hab hrun]
  refine PairRel.foldl_eq_friends (fun p => ?_) (hall a ha b hb hab).2
  cases p with
  | true => exact (hall a ha b hb hab).1
  | false =>
    rw [pairTrace_swap hab.symm]
    exact List.mem_map.2 ⟨_, (hall b hb a ha hab.symm).1, rfl⟩

/-- Two users ask each other. -/
theorem pair_refines_duo : ∃ db' out, Machine.run (step impLimits) (Db.duo [] [])
    [.msg 4 (some (.op (.friendRequest "bob".toList))),
      .msg 5 (some (.op (.friendRequest "alice".toList)))] = some (db', out) ∧
        db'.pairRel "alice".toList "bob".toList = .friends := by
  have h : (Db.duo [] []).Rep := by decide
  obtain ⟨db', out, hrun, -, hU⟩ := @pair_refines impLimits _ h
    [.msg 4 (some (.op (.friendRequest "bob".toList))),
      .msg 5 (some (.op (.friendRequest "alice".toList)))]
  exact ⟨db', out, hrun, hU {"alice".toList, "bob".toList} (by decide) _ (by decide) _
    (by decide) (by decide)⟩

end Ims

end ClassProjects
