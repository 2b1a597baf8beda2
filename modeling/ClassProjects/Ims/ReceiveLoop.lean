import ClassProjects.Ims.HandlerSpec
import ClassProjects.Lib.DoWhile

/-!
# The messages of one buffer

`processUserStr` cuts what `recv` delivered at its newlines and handles the segments one
by one. The parser `impStrToMsg` is a library function and a parameter here.

Every call of the loop gets the same error accumulator, and a message that fails frees it.
So a pass goes wrong if an earlier one has failed (`pass`) : the parser is handed what has
been freed. `callPass` is the pass without that look at the accumulator.

A pass moves `start` only behind a newline. A segment without one, which is what a stream
cut inside a message ends with, is therefore handled again and again : even without that
look the loop returns exactly on buffers that are empty or end with a newline
(`callPass_returns_iff`).
-/

namespace ClassProjects

namespace Ims

variable {lim : ImpLimits} {db : Db} {parse : CStr → Option ImpMsg} {connfd len : ℕ}

/-- The calls that are handed the error accumulator. -/
inductive IemCall
  | impStrToMsg | impEmFprint | impEmFree
deriving DecidableEq

/-- The variables of the loop, and what it has done : the messages sent, the segments
parsed with their offsets, and the calls on the error accumulator. -/
structure LoopState where
  recvStr : CStr
  start : ℕ
  db : Db
  sent : List Sent
  parsed : List (ℕ × CStr)
  iem : List IemCall
deriving DecidableEq

/-- The `for` loop : the index of the first newline from `start` on. -/
def findNewline (recvStr : CStr) (start : ℕ) : Option ℕ :=
  ((recvStr.drop start).findIdx? (· = '\n')).map (start + ·)

/-- Overwrite the newline with a NUL and move `start` behind it, if there is one. -/
def cutSegment (recvStr : CStr) (start : ℕ) : CStr × ℕ :=
  match findNewline recvStr start with
  | some i => (recvStr.set i '\x00', i + 1)
  | none => (recvStr, start)

/-- The calls on the accumulator in one pass : a pass that fails prints and frees it. -/
def iemCalls (ret : ℕ) : List IemCall :=
  .impStrToMsg :: if ret = 0 then [] else [.impEmFprint, .impEmFree]

/-- The calls of one pass, live accumulator or not : the segment at `pstr = recv_str + start`,
up to the first NUL, is parsed and handled. -/
def callPass (lim : ImpLimits) (parse : CStr → Option ImpMsg) (connfd : ℕ) (st : LoopState) :
    Option LoopState :=
  let (recvStr, start) := cutSegment st.recvStr st.start
  let pstr := cstr (recvStr.drop st.start)
  (handleMsg lim st.db connfd (parse pstr)).map fun o =>
    ⟨recvStr, start, o.db, st.sent ++ o.sent, st.parsed ++ [(st.start, pstr)],
      st.iem ++ iemCalls o.ret⟩

/-- One pass of the loop. Its first call hands the accumulator to the parser, which goes
wrong if an earlier pass has freed it. -/
def pass (lim : ImpLimits) (parse : CStr → Option ImpMsg) (connfd : ℕ) (st : LoopState) :
    Option LoopState :=
  if .impEmFree ∈ st.iem then none else callPass lim parse connfd st

/-- `start < len`. -/
def loopTest (len : ℕ) (st : LoopState) : Bool :=
  st.start < len

/-- The state in which the loop starts. -/
def LoopState.init (db : Db) (recvStr : CStr) : LoopState :=
  ⟨recvStr, 0, db, [], [], []⟩

/-- `processUserStr` ends in the state `st`. -/
def processUserStr (lim : ImpLimits) (parse : CStr → Option ImpMsg) (db : Db) (recvStr : CStr)
    (connfd : ℕ) (st : LoopState) : Prop :=
  DoWhile.Returns (pass lim parse connfd) (loopTest recvStr.length) (.init db recvStr) st

/-! ## One pass -/

theorem findNewline_eq_some {s : CStr} {start i : ℕ} (h : findNewline s start = some i) :
    start ≤ i ∧ s[i]? = some '\n' := by
  obtain ⟨k, hk, rfl⟩ := Option.map_eq_some_iff.1 h
  obtain ⟨hlt, hp, -⟩ := List.findIdx?_eq_some_iff_getElem.1 hk
  refine ⟨by omega, ?_⟩
  rw [← List.getElem?_drop, List.getElem?_eq_getElem hlt]
  simpa using hp

theorem exists_findNewline {s : CStr} {start i : ℕ} (hi : start ≤ i) (h : s[i]? = some '\n') :
    ∃ j, findNewline s start = some j := by
  rw [← Option.isSome_iff_exists, findNewline, Option.isSome_map, List.findIdx?_isSome,
    List.any_eq_true]
  refine ⟨'\n', List.mem_of_getElem? (i := i - start) ?_, by simp⟩
  rwa [List.getElem?_drop, Nat.add_sub_cancel' hi]

theorem length_cutSegment (s : CStr) (start : ℕ) : (cutSegment s start).1.length = s.length := by
  unfold cutSegment
  split <;> simp

/-- The characters from the new `start` on are still as they were received. -/
theorem getElem?_cutSegment {s : CStr} {start i : ℕ} (hi : (cutSegment s start).2 ≤ i) :
    (cutSegment s start).1[i]? = s[i]? := by
  unfold cutSegment at hi ⊢
  split at hi
  · simp only at hi ⊢
    rw [List.getElem?_set_ne (by omega)]
  · rfl

/-- `start` moves to the character behind a newline, or stays where it was. -/
theorem cutSegment_start (s : CStr) (start : ℕ) : (cutSegment s start).2 = start ∨
    ∃ i, start ≤ i ∧ s[i]? = some '\n' ∧ (cutSegment s start).2 = i + 1 := by
  unfold cutSegment
  split
  · rename_i i hi
    obtain ⟨hle, hs⟩ := findNewline_eq_some hi
    exact Or.inr ⟨i, hle, hs, rfl⟩
  · exact Or.inl rfl

theorem pass_eq_some {st st' : LoopState} : pass lim parse connfd st = some st' ↔
    .impEmFree ∉ st.iem ∧ callPass lim parse connfd st = some st' := by
  rw [pass]
  split_ifs with hfree <;> simp [hfree]

/-- What a pass does to the variables of the loop. -/
theorem callPass_cut {st st' : LoopState} (h : callPass lim parse connfd st = some st') :
    st'.recvStr = (cutSegment st.recvStr st.start).1 ∧
      st'.start = (cutSegment st.recvStr st.start).2 ∧
      st'.parsed.map Prod.fst = st.parsed.map Prod.fst ++ [st.start] := by
  obtain ⟨o, -, rfl⟩ := Option.map_eq_some_iff.1 h
  exact ⟨rfl, rfl, by simp⟩

/-- No handler meets a NULL, so the calls of every pass come to their end. -/
theorem callPass_total {st : LoopState} (lim : ImpLimits) (parse : CStr → Option ImpMsg)
    (connfd : ℕ) (h : st.db.Rep) :
    ∃ st', callPass lim parse connfd st = some st' ∧ st'.db.Rep := by
  obtain ⟨db', out, hs, h'⟩ := step_total h lim (.msg connfd
    (parse (cstr ((cutSegment st.recvStr st.start).1.drop st.start))))
  obtain ⟨o, ho, hr⟩ := Option.map_eq_some_iff.1 hs
  obtain ⟨rfl, -⟩ := Prod.mk.inj hr
  exact ⟨_, Option.map_eq_some_iff.2 ⟨o, ho, rfl⟩, h'⟩

/-! ## The loop -/

/-- Before each pass over a buffer that ends with a newline : what is left of it does, and
only what lies before `start` has been parsed, each offset once. -/
structure Progress (len : ℕ) (st : LoopState) : Prop where
  rep : st.db.Rep
  length : st.recvStr.length = len
  last : len = 0 ∨ st.start < len ∧ st.recvStr[len - 1]? = some '\n'
  lt : ∀ i ∈ st.parsed.map Prod.fst, i < st.start
  nodup : (st.parsed.map Prod.fst).Nodup

/-- A pass over such a buffer ends the loop or moves `start` forward. -/
theorem callPass_progress {st : LoopState} (h : Progress len st) :
    ∃ st', callPass lim parse connfd st = some st' ∧
      ((loopTest len st' = false ∧ (st'.parsed.map Prod.fst).Nodup) ∨
        (loopTest len st' = true ∧ Progress len st' ∧ len - st'.start < len - st.start)) := by
  obtain ⟨st', hst, hrep⟩ := callPass_total lim parse connfd h.rep
  obtain ⟨hbuf, hstart, hparsed⟩ := callPass_cut hst
  have hnodup : (st'.parsed.map Prod.fst).Nodup := by
    rw [hparsed, List.nodup_append]
    refine ⟨h.nodup, by simp, fun a ha b hb hab => ?_⟩
    have := h.lt a ha
    rw [hab, List.mem_singleton.1 hb] at this
    omega
  refine ⟨st', hst, ?_⟩
  by_cases ht : st'.start < len
  · -- not the last segment, so a newline was found behind `start`
    refine Or.inr ⟨by simpa [loopTest] using ht, ?_⟩
    obtain ⟨hlt, hlast⟩ : st.start < len ∧ st.recvStr[len - 1]? = some '\n' :=
      h.last.resolve_left (by omega)
    have hmoved : st.start < st'.start := by
      obtain ⟨i, hi⟩ := exists_findNewline (by omega : st.start ≤ len - 1) hlast
      obtain ⟨hle, -⟩ := findNewline_eq_some hi
      rw [hstart, cutSegment, hi]
      simp only
      omega
    refine ⟨⟨hrep, ?_, Or.inr ⟨ht, ?_⟩, ?_, hnodup⟩, by omega⟩
    · rw [hbuf, length_cutSegment, h.length]
    · rw [hbuf, getElem?_cutSegment (by omega), hlast]
    · rw [hparsed]
      intro i hi
      rcases List.mem_append.1 hi with hi | hi
      · have := h.lt i hi
        omega
      · rw [List.mem_singleton.1 hi]
        exact hmoved
  · exact Or.inl ⟨by simpa [loopTest] using ht, hnodup⟩

/-- Before each pass over a buffer that does not end with a newline : `start` is inside it,
and the last character is still not one. -/
structure Stuck (len : ℕ) (st : LoopState) : Prop where
  length : st.recvStr.length = len
  lt : st.start < len
  last : st.recvStr[len - 1]? ≠ some '\n'

/-- No pass over such a buffer ends the loop. -/
theorem callPass_stuck {st st' : LoopState} (h : Stuck len st)
    (hst : callPass lim parse connfd st = some st') : loopTest len st' = true ∧ Stuck len st' := by
  obtain ⟨hbuf, hstart, -⟩ := callPass_cut hst
  have hlt : st'.start < len := by
    rw [hstart]
    rcases cutSegment_start st.recvStr st.start with hs | ⟨i, hi, hn, hs⟩ <;> rw [hs]
    · exact h.lt
    · obtain ⟨hlt, -⟩ := List.getElem?_eq_some_iff.1 hn
      have hne : i ≠ len - 1 := fun heq => h.last (heq ▸ hn)
      have := h.length
      omega
  refine ⟨by simpa [loopTest] using hlt, ?_, hlt, ?_⟩
  · rw [hbuf, length_cutSegment, h.length]
  · rw [hbuf, getElem?_cutSegment (by omega)]
    exact h.last

/-- No call returns on a buffer that is not empty and does not end with a newline. -/
theorem callPass_not_returns {recvStr : CStr} (hne : recvStr ≠ [])
    (hlast : recvStr.getLast? ≠ some '\n') (st : LoopState) :
    ¬DoWhile.Returns (callPass lim parse connfd) (loopTest recvStr.length) (.init db recvStr)
      st := by
  have hpos := List.length_pos_of_ne_nil hne
  rw [List.getLast?_eq_getElem?] at hlast
  exact DoWhile.not_returns (fun s s' => callPass_stuck) ⟨rfl, hpos, hlast⟩

/-- On a database that satisfies the representation invariant the loop without the look at the
accumulator returns, with no segment parsed twice, exactly if the buffer is empty or ends with
a newline. -/
theorem callPass_returns_iff (h : db.Rep) (lim : ImpLimits) (parse : CStr → Option ImpMsg)
    (recvStr : CStr) (connfd : ℕ) :
    (∃ st, DoWhile.Returns (callPass lim parse connfd) (loopTest recvStr.length)
        (.init db recvStr) st ∧ (st.parsed.map Prod.fst).Nodup) ↔
      recvStr = [] ∨ recvStr.getLast? = some '\n' := by
  constructor
  · rintro ⟨st, hr, -⟩
    by_contra hno
    obtain ⟨hne, hlast⟩ := not_or.1 hno
    exact callPass_not_returns hne hlast st hr
  · intro hbuf
    have hinit : Progress recvStr.length (.init db recvStr) := by
      refine ⟨h, rfl, ?_, by simp [LoopState.init], by simp [LoopState.init]⟩
      rcases hbuf with rfl | hlast
      · exact Or.inl rfl
      · refine Or.inr ⟨List.length_pos_of_ne_nil fun hnil => ?_, ?_⟩
        · simp [hnil] at hlast
        · rwa [List.getLast?_eq_getElem?] at hlast
    exact DoWhile.returns_of_measure (fun st => recvStr.length - st.start)
      (fun st => callPass_progress) hinit

end Ims

end ClassProjects
