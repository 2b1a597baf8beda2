import ClassProjects.Ims.Accumulator

/-!
# The calls of `processUserStr`

When a call returns, and what it then has done. It goes wrong if a message that is not the
last of its buffer fails, since the next one is parsed with the freed accumulator, and it
does not end on a buffer that is cut inside a message. Otherwise it returns, with every
segment parsed once (`processUserStr_returns_iff`), and has done what handling the messages
one after the other does (`handles_unlines`).

So lines that arrive in one buffer are handled like lines that arrive one by one exactly if
no line but the last fails (`processUserStr_batch_iff`).
-/

namespace ClassProjects

namespace Ims

open DoWhile

variable {lim : ImpLimits} {db db' : Db} {parse : CStr → Option ImpMsg} {connfd : ℕ}
  {ms : List CStr} {m recvStr : CStr} {sent : List Sent} {st : LoopState}

/-! ## The calls that return -/

/-- The calls over whole lines find the accumulator live exactly if no line but the last
fails. -/
theorem usesLive_of_returns (hms : ∀ m ∈ ms, IsSegment m)
    (hr : Returns (callPass lim parse connfd) (loopTest (Lines.unlines ms ++ []).length)
      (.init db (Lines.unlines ms ++ [])) st) :
    UsesLive st.iem ↔ AllSucceed lim parse connfd db ms.dropLast := by
  obtain ⟨n, hn⟩ : ∃ n, max 1 ms.length = n + 1 := ⟨max 1 ms.length - 1, by omega⟩
  have hst := reached_of_returns hms hr
  rw [hn] at hst
  have hlines : handled ms [] n = ms.dropLast := by
    rw [handled_of_le (by omega), List.dropLast_eq_take]
    cases ms with
    | nil => rw [List.take_nil, List.take_nil]
    | cons m ms => rw [show n = (m :: ms).length - 1 by rw [List.length_cons] at hn ⊢; omega]
  rw [(live_of_reached (returns_iff.1 hr).1 hst).1, hlines]

/-- On a database that satisfies the representation invariant the function returns, with no
segment parsed twice, exactly if the buffer is empty or ends with a newline, and no message
of it but the last fails. -/
theorem processUserStr_returns_iff (h : db.Rep) (lim : ImpLimits) (parse : CStr → Option ImpMsg)
    (recvStr : CStr) (connfd : ℕ) (h0 : '\x00' ∉ recvStr) :
    (∃ st, processUserStr lim parse db recvStr connfd st ∧ (st.parsed.map Prod.fst).Nodup) ↔
      (recvStr = [] ∨ recvStr.getLast? = some '\n') ∧
        AllSucceed lim parse connfd db (Lines.split recvStr).1.dropLast := by
  have hlive : (recvStr = [] ∨ recvStr.getLast? = some '\n') → ∀ st,
      Returns (callPass lim parse connfd) (loopTest recvStr.length) (.init db recvStr) st →
        (UsesLive st.iem ↔ AllSucceed lim parse connfd db (Lines.split recvStr).1.dropLast) := by
    intro hbuf st hr
    obtain ⟨hms, hseg⟩ := isSegment_split h0
    have hsplit := Lines.unlines_split recvStr
    obtain ⟨⟨ms, tail⟩, hms'⟩ : ∃ r, Lines.split recvStr = r := ⟨_, rfl⟩
    rw [hms'] at hms hseg hsplit ⊢
    -- behind the last newline there is nothing
    obtain rfl : tail = [] := by
      by_contra hne
      rcases hbuf with rfl | hlast
      · exact hne (List.append_eq_nil_iff.1 hsplit).2
      · rw [← hsplit, List.getLast?_append_of_ne_nil _ hne] at hlast
        exact hseg.1 (List.mem_of_getLast? hlast)
    rw [← hsplit] at hr
    exact usesLive_of_returns hms hr
  constructor
  · rintro ⟨st, hr, hnodup⟩
    obtain ⟨hr, huses⟩ := processUserStr_iff.1 hr
    have hbuf := (callPass_returns_iff h lim parse recvStr connfd).1 ⟨st, hr, hnodup⟩
    exact ⟨hbuf, (hlive hbuf st hr).1 huses⟩
  · rintro ⟨hbuf, hall⟩
    obtain ⟨st, hr, hnodup⟩ := (callPass_returns_iff h lim parse recvStr connfd).2 hbuf
    exact ⟨st, processUserStr_iff.2 ⟨hr, (hlive hbuf st hr).2 hall⟩, hnodup⟩

/-- A registration that succeeds, and a line that is no message. -/
theorem processUserStr_returns_two :
    ∃ st, processUserStr impLimits
        (fun s => if s = "r".toList then some (.op (.register "alice".toList)) else none)
        Db.empty "r\nhello\n".toList 4 st ∧ (st.parsed.map Prod.fst).Nodup :=
  (processUserStr_returns_iff (by decide) _ _ _ _ (by decide)).2 (by decide)

/-- The first part of a message that the network has cut is handled for ever, or its second
pass uses the freed accumulator. So does the second line of a buffer whose first line is no
message. -/
theorem processUserStr_cut : Db.empty.Rep ∧
    (∀ (parse : CStr → Option ImpMsg) st,
      ¬processUserStr impLimits parse Db.empty "hel".toList 4 st) ∧
    ∀ st, ¬processUserStr impLimits (fun _ => none) Db.empty "x\ny\n".toList 4 st := by
  refine ⟨by decide, fun parse st hr => ?_, fun st hr => ?_⟩
  · exact callPass_not_returns (by decide) (by decide) st (processUserStr_iff.1 hr).1
  · obtain ⟨hr, hlive⟩ := processUserStr_iff.1 hr
    have hlines : ∀ m ∈ ["x".toList, "y".toList], IsSegment m := by decide
    exact absurd ((usesLive_of_returns hlines hr).1 hlive) (by decide)

/-! ## A buffer and its lines -/

/-- A call of `processUserStr` that returns, with the database behind it and what it sent. -/
def Handles (lim : ImpLimits) (parse : CStr → Option ImpMsg) (connfd : ℕ) (db : Db)
    (recvStr : CStr) (db' : Db) (sent : List Sent) : Prop :=
  ∃ st, processUserStr lim parse db recvStr connfd st ∧ st.db = db' ∧ st.sent = sent

/-- What `userThread` does with the bytes of one `recv` : it processes them if there are any. -/
def Receives (lim : ImpLimits) (parse : CStr → Option ImpMsg) (connfd : ℕ) (db : Db)
    (recvStr : CStr) (db' : Db) (sent : List Sent) : Prop :=
  if recvStr.length = 0 then db' = db ∧ sent = [] else Handles lim parse connfd db recvStr db' sent

/-- Calls one after the other, each on the database that the one before has left. -/
inductive Calls (call : Db → CStr → Db → List Sent → Prop) : Db → List CStr → Db →
    List Sent → Prop
  | nil {db : Db} : Calls call db [] db []
  | cons {db db₁ db₂ : Db} {s : CStr} {ss : List CStr} {sent₁ sent₂ : List Sent}
    (h : call db s db₁ sent₁) (hs : Calls call db₁ ss db₂ sent₂) :
    Calls call db (s :: ss) db₂ (sent₁ ++ sent₂)

/-- Whole lines are handled exactly if none but the last fails, and then as they are one by
one. -/
theorem handles_unlines (hms : ∀ m ∈ ms, IsSegment m) (hne : ms ≠ []) :
    Handles lim parse connfd db (Lines.unlines ms) db' sent ↔
      AllSucceed lim parse connfd db ms.dropLast ∧
        ∃ os, Machine.run (handleStr lim parse connfd) db ms = some (db', os) ∧
          sent = os.flatMap Outcome.sent := by
  have hpos : 1 ≤ ms.length := List.length_pos_of_ne_nil hne
  have htail : IsSegment [] := ⟨List.not_mem_nil, List.not_mem_nil⟩
  have hall : handled ms [] ms.length = ms := by
    rw [handled_of_le le_rfl, List.take_length]
  rw [← List.append_nil (Lines.unlines ms)]
  constructor
  · rintro ⟨st, hr, rfl, rfl⟩
    obtain ⟨hr, hlive⟩ := processUserStr_iff.1 hr
    refine ⟨(usesLive_of_returns hms hr).1 hlive, ?_⟩
    have hst := reached_of_returns hms hr
    rw [Nat.max_eq_right hpos] at hst
    obtain ⟨os, hrun, hsent, -⟩ := handled_of_reaches (returns_iff.1 hr).1
    rw [hst.parsed, hall] at hrun
    exact ⟨os, hrun, hsent⟩
  · rintro ⟨hsucceed, os, hrun, rfl⟩
    obtain ⟨st, hreach, hst⟩ := exists_reaches hms htail hpos (by omega) (hall.symm ▸ hrun)
    obtain ⟨os', hrun', hsent, -⟩ := handled_of_reaches hreach
    rw [hst.parsed, hall, hrun] at hrun'
    obtain ⟨hdb, rfl⟩ := Prod.mk.inj (Option.some.inj hrun')
    have htest : loopTest (Lines.unlines ms ++ []).length st = false := by
      rw [← Bool.not_eq_true, reached_loopTest hst]
      simp
    have hr := returns_iff.2 ⟨hreach, htest⟩
    exact ⟨st, processUserStr_iff.2 ⟨hr, (usesLive_of_returns hms hr).2 hsucceed⟩, hdb.symm, hsent⟩

theorem handles_line (hm : IsSegment m) : Handles lim parse connfd db (m ++ ['\n']) db' sent ↔
    ∃ o, handleStr lim parse connfd db m = some (db', [o]) ∧ sent = o.sent := by
  have hms : ∀ m' ∈ [m], IsSegment m' := by simpa using hm
  have hline : Lines.unlines [m] = m ++ ['\n'] := List.append_nil _
  rw [← hline, handles_unlines hms (List.cons_ne_nil m [])]
  constructor
  · rintro ⟨-, os, hrun, rfl⟩
    obtain ⟨_, o, _, hs, hnil, rfl⟩ := Machine.run_cons_eq_some.1 hrun
    obtain ⟨rfl, rfl⟩ := Prod.mk.inj (Option.some.inj hnil)
    obtain ⟨o, -, ho⟩ := Option.map_eq_some_iff.1 hs
    obtain ⟨-, rfl⟩ := Prod.mk.inj ho
    exact ⟨o, hs, by simp⟩
  · rintro ⟨o, hs, rfl⟩
    exact ⟨trivial, [o], Machine.run_cons_eq_some.2 ⟨db', [o], [], hs, rfl, rfl⟩, by simp⟩

theorem receives_of_ne_nil (h : recvStr ≠ []) :
    Receives lim parse connfd db recvStr db' sent ↔
      Handles lim parse connfd db recvStr db' sent := by
  rw [Receives, if_neg fun h0 => h (List.length_eq_zero_iff.1 h0)]

/-- One call for each line handles them in order, whether they fail or not. -/
theorem calls_lines (hms : ∀ m ∈ ms, IsSegment m) :
    Calls (Receives lim parse connfd) db (ms.map (· ++ ['\n'])) db' sent ↔
      ∃ os, Machine.run (handleStr lim parse connfd) db ms = some (db', os) ∧
        sent = os.flatMap Outcome.sent := by
  induction ms generalizing db sent with
  | nil =>
    constructor
    · rintro ⟨⟩
      exact ⟨[], rfl, rfl⟩
    · rintro ⟨os, hrun, rfl⟩
      obtain ⟨rfl, rfl⟩ := Prod.mk.inj (Option.some.inj hrun)
      exact .nil
  | cons m ms ih =>
    obtain ⟨hm, hms⟩ := List.forall_mem_cons.1 hms
    have hline : m ++ ['\n'] ≠ [] := List.append_ne_nil_of_right_ne_nil _ (List.cons_ne_nil _ _)
    constructor
    · rintro (⟨⟩ | ⟨h, hs⟩)
      obtain ⟨o, ho, rfl⟩ := (handles_line hm).1 ((receives_of_ne_nil hline).1 h)
      obtain ⟨os, hrun, rfl⟩ := (ih hms).1 hs
      exact ⟨o :: os, Machine.run_cons_eq_some.2 ⟨_, [o], os, ho, hrun, rfl⟩, rfl⟩
    · rintro ⟨os, hrun, rfl⟩
      obtain ⟨db₁, _, os', ho, hrest, rfl⟩ := Machine.run_cons_eq_some.1 hrun
      obtain ⟨o, -, heq⟩ := Option.map_eq_some_iff.1 ho
      obtain ⟨-, rfl⟩ := Prod.mk.inj heq
      rw [List.map_cons, List.flatMap_append]
      refine .cons ((receives_of_ne_nil hline).2 ?_) ((ih hms).2 ⟨os', hrest, rfl⟩)
      exact (handles_line hm).2 ⟨o, ho, by simp⟩

/-- One buffer with the lines of the messages is handled, as is a buffer for each of them,
with the same database behind it and the same messages sent in the same order. `userThread`
makes no call for a `recv` without bytes. -/
def Batched (lim : ImpLimits) (parse : CStr → Option ImpMsg) (connfd : ℕ) (db : Db)
    (ms : List CStr) : Prop :=
  ∃ db' sent, Receives lim parse connfd db (ms.flatMap (· ++ ['\n'])) db' sent ∧
    Calls (Receives lim parse connfd) db (ms.map (· ++ ['\n'])) db' sent

/-- Batched messages are handled like separate ones if and only if none but the last fails. -/
theorem processUserStr_batch_iff (h : db.Rep) (lim : ImpLimits) (parse : CStr → Option ImpMsg)
    (connfd : ℕ) (hms : ∀ m ∈ ms, '\n' ∉ m ∧ '\x00' ∉ m) :
    Batched lim parse connfd db ms ↔ AllSucceed lim parse connfd db ms.dropLast := by
  cases ms with
  | nil => exact iff_of_true ⟨db, [], ⟨rfl, rfl⟩, .nil⟩ trivial
  | cons m ms =>
    have hne : Lines.unlines (m :: ms) ≠ [] := by simp
    constructor
    · rintro ⟨db', sent, hr, -⟩
      exact ((handles_unlines hms (List.cons_ne_nil m ms)).1 ((receives_of_ne_nil hne).1 hr)).1
    · intro hall
      obtain ⟨db', os, hrun, -⟩ :=
        Machine.run_total (handleStr_total lim parse connfd) h (m :: ms)
      refine ⟨db', os.flatMap Outcome.sent, (receives_of_ne_nil hne).2 ?_, ?_⟩
      · exact (handles_unlines hms (List.cons_ne_nil m ms)).2 ⟨hall, os, hrun, rfl⟩
      · exact (calls_lines hms).2 ⟨os, hrun, rfl⟩

/-- A registration and a login that succeed, and a line that is no message. -/
theorem processUserStr_batch_three :
    Batched impLimits (fun s =>
        if s = "0 0 alice".toList then some (.op (.register "alice".toList))
        else if s = "0 1 alice".toList then some (.op (.login "alice".toList)) else none) 4
      Db.empty ["0 0 alice".toList, "0 1 alice".toList, "hello".toList] :=
  (processUserStr_batch_iff (by decide) _ _ _ (by decide)).2 (by decide)

/-- Two lines that are no messages are both answered when they arrive one by one. In one
buffer the second is parsed with the freed accumulator. -/
theorem not_processUserStr_batch : Db.empty.Rep ∧
    Calls (Receives impLimits (fun _ => none) 4) Db.empty ["x\n".toList, "y\n".toList] Db.empty
      [⟨4, .error .badCommand none⟩, ⟨4, .error .badCommand none⟩] ∧
    (∀ db' sent, ¬Receives impLimits (fun _ => none) 4 Db.empty "x\ny\n".toList db' sent) ∧
    ¬Batched impLimits (fun _ => none) 4 Db.empty ["x".toList, "y".toList] := by
  have hms : ∀ m ∈ ["x".toList, "y".toList], IsSegment m := by decide
  have hwrong : ∀ db' sent,
      ¬Receives impLimits (fun _ => none) 4 Db.empty "x\ny\n".toList db' sent := by
    intro db' sent hr
    obtain ⟨hall, -⟩ := (handles_unlines hms (by decide)).1 ((receives_of_ne_nil (by decide)).1 hr)
    exact absurd hall (by decide)
  refine ⟨by decide, ?_, hwrong, fun ⟨db', sent, hr, _⟩ => hwrong db' sent hr⟩
  exact (calls_lines hms).2 ⟨_, rfl, rfl⟩

end Ims

end ClassProjects
