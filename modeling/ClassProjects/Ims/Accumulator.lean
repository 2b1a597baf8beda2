import ClassProjects.Ims.Segments

/-!
# The error accumulator of a buffer

`processUserStr` creates one accumulator, and every message that fails frees it. So the
accumulator is live in every pass exactly if no message fails before the last one, and it is
freed exactly once if that one does (`iemSafe_iff`). A buffer that is cut inside a message
has no last one : there no message may fail.

Up to the first call that finds the accumulator freed, the loop does what its calls do
(`reaches_pass_iff`).
-/

namespace ClassProjects

namespace Ims

open DoWhile

variable {lim : ImpLimits} {db db' : Db} {parse : CStr → Option ImpMsg} {connfd k : ℕ}
  {ms : List CStr} {tail recvStr : CStr} {os : List Outcome} {calls : List IemCall}
  {st : LoopState}

/-- Every call finds the accumulator live. -/
def UsesLive (calls : List IemCall) : Prop :=
  ∀ before c after, calls = before ++ c :: after → .impEmFree ∉ before

/-- All calls that the passes make find the accumulator live, and where the function returns it
has been freed exactly once. -/
def IemSafe (lim : ImpLimits) (parse : CStr → Option ImpMsg) (connfd : ℕ) (db : Db)
    (recvStr : CStr) : Prop :=
  (∀ st, Reaches (callPass lim parse connfd) (loopTest recvStr.length) (.init db recvStr) st →
    UsesLive st.iem) ∧
  ∀ st, processUserStr lim parse db recvStr connfd st → st.iem.count .impEmFree = 1

/-- The message is handled and does not fail. -/
def Succeeds (lim : ImpLimits) (parse : CStr → Option ImpMsg) (connfd : ℕ) (db : Db) (m : CStr) :
    Prop :=
  ((handleMsg lim db connfd (parse m)).any fun o => o.ret = 0) = true

instance (lim : ImpLimits) (parse : CStr → Option ImpMsg) (connfd : ℕ) (db : Db) (m : CStr) :
    Decidable (Succeeds lim parse connfd db m) :=
  inferInstanceAs (Decidable (_ = true))

/-- Handled in order from the database on, every message succeeds. -/
def AllSucceed (lim : ImpLimits) (parse : CStr → Option ImpMsg) (connfd : ℕ) (db : Db)
    (ms : List CStr) : Prop :=
  Machine.AllSteps (handleStr lim parse connfd) (Succeeds lim parse connfd) db ms

instance (lim : ImpLimits) (parse : CStr → Option ImpMsg) (connfd : ℕ) (db : Db)
    (ms : List CStr) : Decidable (AllSucceed lim parse connfd db ms) :=
  inferInstanceAs (Decidable (Machine.AllSteps _ _ _ _))

/-- The strings of a buffer without a tail : an empty one is handled like an empty line. -/
def wholeLines : List CStr → List CStr
  | [] => [[]]
  | m :: ms => m :: ms

/-- The last message of the buffer fails and no other does. If the buffer is cut inside a
message, no line fails, nor does that message any number of times. -/
def OnlyLastFails (lim : ImpLimits) (parse : CStr → Option ImpMsg) (connfd : ℕ) (db : Db)
    (recvStr : CStr) : Prop :=
  let (ms, tail) := Lines.split recvStr
  (tail = [] → AllSucceed lim parse connfd db (wholeLines ms).dropLast ∧
    ¬AllSucceed lim parse connfd db (wholeLines ms)) ∧
  (tail ≠ [] → ∀ n, AllSucceed lim parse connfd db (ms ++ List.replicate n tail))

/-! ## The calls of some messages -/

theorem usesLive_iff : UsesLive calls ↔ .impEmFree ∉ calls.dropLast := by
  constructor
  · intro h
    rcases List.eq_nil_or_concat calls with rfl | ⟨before, c, rfl⟩
    · exact List.not_mem_nil
    · rw [List.concat_eq_append, List.dropLast_concat]
      exact h before c [] List.concat_eq_append
  · rintro h before c after rfl hmem
    rw [List.dropLast_append_cons] at h
    exact h (List.mem_append_left _ hmem)

/-- The calls of a pass find the accumulator live if none before them has freed it. -/
theorem usesLive_append (calls : List IemCall) (ret : ℕ) :
    UsesLive (calls ++ iemCalls ret) ↔ .impEmFree ∉ calls := by
  have hlast : iemCalls ret ≠ [] ∧ .impEmFree ∉ (iemCalls ret).dropLast := by
    rw [iemCalls]
    split_ifs <;> decide
  rw [usesLive_iff, List.dropLast_append_of_ne_nil hlast.1, List.mem_append, not_or,
    and_iff_left hlast.2]

/-- No call before the last message's frees the accumulator. -/
theorem usesLive_outcomes (os : List Outcome) (o : Outcome) :
    UsesLive ((os ++ [o]).flatMap fun o => iemCalls o.ret) ↔ ∀ o ∈ os, o.ret = 0 := by
  have hfree : ∀ r, .impEmFree ∈ iemCalls r ↔ r ≠ 0 := by
    intro r
    rw [iemCalls]
    split_ifs with h <;> simp [h]
  rw [List.flatMap_append, List.flatMap_singleton, usesLive_append, List.mem_flatMap]
  simp only [hfree, not_exists, not_and, not_not]

/-- Every message that fails frees the accumulator once. -/
theorem count_outcomes (os : List Outcome) :
    (os.flatMap fun o => iemCalls o.ret).count .impEmFree = os.countP fun o => o.ret ≠ 0 := by
  induction os with
  | nil => rfl
  | cons o os ih =>
    rw [List.flatMap_cons, List.count_append, ih, List.countP_cons, iemCalls]
    by_cases h : o.ret = 0 <;> simp [h, Nat.add_comm]

theorem allSucceed_iff (h : Machine.run (handleStr lim parse connfd) db ms = some (db', os)) :
    AllSucceed lim parse connfd db ms ↔ ∀ o ∈ os, o.ret = 0 := by
  induction ms generalizing db os with
  | nil =>
    obtain ⟨-, rfl⟩ := Prod.mk.inj (Option.some.inj h)
    exact iff_of_true trivial (by simp)
  | cons m ms ih =>
    obtain ⟨db₁, _, os', hs, hrun, rfl⟩ := Machine.run_cons_eq_some.1 h
    obtain ⟨o, ho, heq⟩ := Option.map_eq_some_iff.1 hs
    obtain ⟨-, rfl⟩ := Prod.mk.inj heq
    have hm : Succeeds lim parse connfd db m ↔ o.ret = 0 := by
      rw [Succeeds, ho, Option.any_some, decide_eq_true_eq]
    have hrest : (∀ s' o', handleStr lim parse connfd db m = some (s', o') →
        AllSucceed lim parse connfd s' ms) ↔ AllSucceed lim parse connfd db₁ ms := by
      simp [hs]
    rw [List.singleton_append, List.forall_mem_cons, ← ih hrun, ← hrest, ← hm]
    rfl

/-! ## The loop and its calls -/

/-- A pass that does not go wrong is one whose calls find the accumulator live. -/
theorem pass_iff {st' : LoopState} : pass lim parse connfd st = some st' ↔
    callPass lim parse connfd st = some st' ∧ UsesLive st'.iem := by
  rw [pass_eq_some, and_comm]
  refine and_congr_right fun h => ?_
  obtain ⟨o, -, -, hiem, -⟩ := callPass_handles h
  rw [hiem, usesLive_append]

theorem reaches_pass_iff {len : ℕ} :
    Reaches (pass lim parse connfd) (loopTest len) (.init db recvStr) st ↔
      Reaches (callPass lim parse connfd) (loopTest len) (.init db recvStr) st ∧
        UsesLive st.iem := by
  constructor
  · intro h
    induction h with
    | first hs =>
      obtain ⟨hs, hlive⟩ := pass_iff.1 hs
      exact ⟨.first hs, hlive⟩
    | next _ ht hs ih =>
      obtain ⟨hs, hlive⟩ := pass_iff.1 hs
      exact ⟨.next ih.1 ht hs, hlive⟩
  · rintro ⟨h, hlive⟩
    induction h with
    | first hs => exact .first (pass_iff.2 ⟨hs, hlive⟩)
    | next _ ht hs ih =>
      have hs' := pass_iff.2 ⟨hs, hlive⟩
      obtain ⟨hfree, -⟩ := pass_eq_some.1 hs'
      exact .next (ih (usesLive_iff.2 fun hmem => hfree (List.dropLast_subset _ hmem))) ht hs'

/-- The function returns where its calls do, if they found the accumulator live. -/
theorem processUserStr_iff : processUserStr lim parse db recvStr connfd st ↔
    Returns (callPass lim parse connfd) (loopTest recvStr.length) (.init db recvStr) st ∧
      UsesLive st.iem := by
  rw [processUserStr, returns_iff, returns_iff, reaches_pass_iff]
  tauto

/-! ## The calls of a buffer -/

/-- Behind a pass, with `k` strings handled before it : every call found the accumulator live
exactly if those succeeded, and then it has been freed once exactly if the last one failed. -/
theorem live_of_reached
    (h : Reaches (callPass lim parse connfd) (loopTest (Lines.unlines ms ++ tail).length)
      (.init db (Lines.unlines ms ++ tail)) st) (hst : Reached ms tail (k + 1) st) :
    (UsesLive st.iem ↔ AllSucceed lim parse connfd db (handled ms tail k)) ∧
      (AllSucceed lim parse connfd db (handled ms tail k) → (st.iem.count .impEmFree = 1 ↔
        ¬AllSucceed lim parse connfd db (handled ms tail (k + 1)))) := by
  obtain ⟨os, hrun, -, hiem⟩ := handled_of_reaches h
  rw [hst.parsed] at hrun
  obtain ⟨db₁, before, _, hbefore, hlast, rfl⟩ :=
    Machine.run_append_eq_some.1 (handled_succ ms tail k ▸ hrun)
  obtain ⟨_, o, _, hs, hnil, rfl⟩ := Machine.run_cons_eq_some.1 hlast
  obtain ⟨-, rfl⟩ := Prod.mk.inj (Option.some.inj hnil)
  obtain ⟨o, -, heq⟩ := Option.map_eq_some_iff.1 hs
  obtain ⟨-, rfl⟩ := Prod.mk.inj heq
  rw [List.append_nil] at hrun hiem
  rw [hiem, usesLive_outcomes, count_outcomes, allSucceed_iff hbefore, allSucceed_iff hrun]
  refine ⟨Iff.rfl, fun hzero => ?_⟩
  have hcount : (before.countP fun o => o.ret ≠ 0) = 0 :=
    List.countP_eq_zero.2 fun o ho => by simp [hzero o ho]
  rw [List.countP_append, hcount, List.forall_mem_append, List.forall_mem_singleton]
  by_cases ho : o.ret = 0
  · simpa [ho] using hzero
  · simp [ho]

theorem handleStr_total (lim : ImpLimits) (parse : CStr → Option ImpMsg) (connfd : ℕ) (db : Db)
    (m : CStr) (h : db.Rep) :
    ∃ db' os, handleStr lim parse connfd db m = some (db', os) ∧ db'.Rep := by
  obtain ⟨db', out, hs, h'⟩ := step_total h lim (.msg connfd (parse m))
  obtain ⟨o, ho, hr⟩ := Option.map_eq_some_iff.1 hs
  obtain ⟨rfl, -⟩ := Prod.mk.inj hr
  exact ⟨o.db, [o], Option.map_eq_some_iff.2 ⟨o, ho, rfl⟩, h'⟩

/-- On a database with the representation invariant the loop makes every pass it can. -/
theorem exists_pass (h : db.Rep) (hms : ∀ m ∈ ms, IsSegment m) (htail : IsSegment tail)
    (hk : tail = [] → k + 1 ≤ max 1 ms.length) :
    ∃ st, Reaches (callPass lim parse connfd) (loopTest (Lines.unlines ms ++ tail).length)
      (.init db (Lines.unlines ms ++ tail)) st ∧ Reached ms tail (k + 1) st := by
  obtain ⟨db', os, hrun, -⟩ :=
    Machine.run_total (handleStr_total lim parse connfd) h (handled ms tail (k + 1))
  exact exists_reaches hms htail (Nat.le_add_left 1 k) hk hrun

/-- Behind the last pass over whole lines they have all been handled. -/
theorem reached_of_returns (hms : ∀ m ∈ ms, IsSegment m)
    (hr : Returns (callPass lim parse connfd) (loopTest (Lines.unlines ms ++ []).length)
      (.init db (Lines.unlines ms ++ [])) st) : Reached ms [] (max 1 ms.length) st := by
  obtain ⟨hreach, htest⟩ := returns_iff.1 hr
  obtain ⟨k, hpos, hst, hk⟩ :=
    exists_reached hms ⟨List.not_mem_nil, List.not_mem_nil⟩ hreach
  have hlen := (reached_loopTest hst).not.1 (ne_true_of_eq_false htest)
  have hle := hk rfl
  obtain rfl : k = max 1 ms.length := by omega
  exact hst

theorem handled_isPrefix {j : ℕ} (hjk : j ≤ k) (ms : List CStr) (tail : CStr) :
    handled ms tail j <+: handled ms tail k := by
  induction k, hjk using Nat.le_induction with
  | base => exact List.prefix_refl _
  | succ k _ ih =>
    rw [handled_succ]
    exact ih.trans (List.prefix_append _ _)

/-- The first part of the property : no string but the last that is handled fails. -/
theorem usesLive_iff_allSucceed (lim : ImpLimits) (parse : CStr → Option ImpMsg) (connfd : ℕ)
    (h : db.Rep) (hms : ∀ m ∈ ms, IsSegment m) (htail : IsSegment tail) :
    (∀ st, Reaches (callPass lim parse connfd) (loopTest (Lines.unlines ms ++ tail).length)
        (.init db (Lines.unlines ms ++ tail)) st → UsesLive st.iem) ↔
      ∀ k, (tail = [] → k + 1 ≤ max 1 ms.length) →
        AllSucceed lim parse connfd db (handled ms tail k) := by
  constructor
  · intro hlive k hk
    obtain ⟨st, hreach, hst⟩ := exists_pass h hms htail hk
    exact (live_of_reached hreach hst).1.1 (hlive st hreach)
  · intro hall st hreach
    obtain ⟨k, hpos, hst, hk⟩ := exists_reached hms htail hreach
    obtain ⟨k, rfl⟩ : ∃ j, k = j + 1 := ⟨k - 1, by omega⟩
    exact (live_of_reached hreach hst).1.2 (hall k hk)

theorem wholeLines_eq (ms : List CStr) : wholeLines ms = handled ms [] (max 1 ms.length) := by
  cases ms with
  | nil => rfl
  | cons m ms =>
    rw [List.length_cons, Nat.max_eq_right (Nat.le_add_left 1 _), ← List.length_cons,
      handled_of_le le_rfl, List.take_length]
    rfl

/-- A buffer that ends with a newline, or is empty. -/
theorem iemSafe_whole (h : db.Rep) (hms : ∀ m ∈ ms, IsSegment m) :
    IemSafe lim parse connfd db (Lines.unlines ms ++ []) ↔
      AllSucceed lim parse connfd db (wholeLines ms).dropLast ∧
        ¬AllSucceed lim parse connfd db (wholeLines ms) := by
  have htail : IsSegment [] := ⟨List.not_mem_nil, List.not_mem_nil⟩
  obtain ⟨n, hn⟩ : ∃ n, max 1 ms.length = n + 1 := ⟨max 1 ms.length - 1, by omega⟩
  have hlive := usesLive_iff_allSucceed lim parse connfd h hms htail
  rw [wholeLines_eq, hn, handled_succ, List.dropLast_concat, ← handled_succ]
  constructor
  · rintro ⟨hsafe, honce⟩
    have hall := hlive.1 hsafe n fun _ => hn.ge
    obtain ⟨st, hreach, hst⟩ := exists_pass h hms htail fun _ => hn.ge
    have htest : loopTest (Lines.unlines ms ++ []).length st = false := by
      rw [← Bool.not_eq_true, reached_loopTest hst]
      simp only [ne_eq, not_true_eq_false, or_false]
      omega
    refine ⟨hall, ((live_of_reached hreach hst).2 hall).1 (honce st ?_)⟩
    exact processUserStr_iff.2 ⟨returns_iff.2 ⟨hreach, htest⟩, hsafe st hreach⟩
  · rintro ⟨hall, hfail⟩
    refine ⟨hlive.2 fun k hk => hall.of_isPrefix (handled_isPrefix ?_ _ _), fun st hr => ?_⟩
    · have := hk rfl
      omega
    · obtain ⟨hr, -⟩ := processUserStr_iff.1 hr
      have hst := reached_of_returns hms hr
      rw [hn] at hst
      exact ((live_of_reached (returns_iff.1 hr).1 hst).2 hall).2 hfail

/-- A buffer that is cut inside a message : the function does not return. -/
theorem iemSafe_cut (h : db.Rep) (hms : ∀ m ∈ ms, IsSegment m) (htail : IsSegment tail)
    (hne : tail ≠ []) : IemSafe lim parse connfd db (Lines.unlines ms ++ tail) ↔
      ∀ n, AllSucceed lim parse connfd db (ms ++ List.replicate n tail) := by
  have hstuck : ∀ st, ¬processUserStr lim parse db (Lines.unlines ms ++ tail) connfd st := by
    refine fun st hr => callPass_not_returns (List.append_ne_nil_of_right_ne_nil _ hne)
      (fun hlast => ?_) st (processUserStr_iff.1 hr).1
    rw [List.getLast?_append_of_ne_nil _ hne] at hlast
    exact htail.1 (List.mem_of_getLast? hlast)
  rw [IemSafe, usesLive_iff_allSucceed lim parse connfd h hms htail,
    and_iff_left fun st hr => absurd hr (hstuck st)]
  constructor
  · intro hall n
    rw [← handled_add]
    exact hall _ fun hnil => absurd hnil hne
  · intro hall k _
    have hk := hall k
    rw [← handled_add] at hk
    exact hk.of_isPrefix (handled_isPrefix (Nat.le_add_left k _) _ _)

/-- The accumulator of a buffer is used only while it is live, and freed exactly once, if and
only if the last message of the buffer fails and no other does. -/
theorem iemSafe_iff (lim : ImpLimits) (parse : CStr → Option ImpMsg) (connfd : ℕ) (h : db.Rep)
    (h0 : '\x00' ∉ recvStr) :
    IemSafe lim parse connfd db recvStr ↔ OnlyLastFails lim parse connfd db recvStr := by
  have hsplit := Lines.unlines_split recvStr
  obtain ⟨hms, htail⟩ := isSegment_split h0
  obtain ⟨⟨ms, tail⟩, hr⟩ : ∃ r, Lines.split recvStr = r := ⟨_, rfl⟩
  rw [hr] at hms htail hsplit
  simp only [OnlyLastFails, hr]
  rw [← hsplit]
  by_cases hnil : tail = []
  · subst hnil
    rw [iemSafe_whole h hms]
    exact ⟨fun hall => ⟨fun _ => hall, fun hne => absurd rfl hne⟩, fun hall => hall.1 rfl⟩
  · rw [iemSafe_cut h hms htail hnil]
    exact ⟨fun hall => ⟨fun hnil' => absurd hnil' hnil, fun _ => hall⟩, fun hall => hall.2 hnil⟩

/-- A registration that succeeds and a line that is no message. -/
theorem iemSafe_last : IemSafe impLimits
    (fun s => if s = "r".toList then some (.op (.register "alice".toList)) else none) 4 Db.empty
    "r\nhello\n".toList :=
  (iemSafe_iff _ _ _ (by decide) (by decide)).2 ⟨fun _ => (by decide), fun h => absurd rfl h⟩

/-- The second of two lines that are no messages is parsed with the freed accumulator, and
the accumulator of a single message that succeeds is not freed. -/
theorem not_iemSafe : Db.empty.Rep ∧
    ¬IemSafe impLimits (fun _ => none) 4 Db.empty "x\ny\n".toList ∧
    ¬IemSafe impLimits (fun _ => some (.op (.register "alice".toList))) 4 Db.empty
      "r\n".toList := by
  refine ⟨by decide, fun ⟨hlive, _⟩ => ?_, fun ⟨_, honce⟩ => ?_⟩
  · have hreach : Reaches (callPass impLimits (fun _ => none) 4) (loopTest "x\ny\n".toList.length)
        (.init Db.empty "x\ny\n".toList) _ := .next (.first rfl) rfl rfl
    exact hlive _ hreach [.impStrToMsg, .impEmFprint, .impEmFree] .impStrToMsg _ rfl (by decide)
  · have honce' := honce _ (returns_of_not rfl rfl)
    revert honce'
    decide

end Ims

end ClassProjects
