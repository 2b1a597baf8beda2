import ClassProjects.Ims.ReceiveLoop
import ClassProjects.Lib.Lines

/-!
# The strings of one buffer

Which strings the calls of `processUserStr` hand to the parser, as long as the accumulator
is not looked at. A buffer is its lines and the tail behind its last newline. The passes
handle the lines in order and then, if there is a tail or nothing else, the tail again and
again (`At.cut`, `Reached`). What the loop has done behind any pass is what handling these
strings one after the other does (`handled_of_reaches`), and it can do so as long as no
handler meets a NULL (`exists_reaches`).
-/

namespace ClassProjects

namespace Ims

open DoWhile

variable {lim : ImpLimits} {db : Db} {parse : CStr → Option ImpMsg} {connfd k : ℕ}
  {ms : List CStr} {m tail recvStr : CStr} {st : LoopState}

/-! ## Cutting the buffer -/

/-- Neither end of a segment : no newline and no NUL. -/
def IsSegment (m : CStr) : Prop :=
  '\n' ∉ m ∧ '\x00' ∉ m

instance (m : CStr) : Decidable (IsSegment m) :=
  inferInstanceAs (Decidable (_ ∧ _))

/-- The lines of a received string, and what is behind the last of them. -/
theorem isSegment_split (h0 : '\x00' ∉ recvStr) :
    (∀ m ∈ (Lines.split recvStr).1, IsSegment m) ∧ IsSegment (Lines.split recvStr).2 := by
  obtain ⟨hnl, hntail⟩ := Lines.split_not_mem recvStr
  have hsplit := Lines.unlines_split recvStr
  refine ⟨fun m hm => ⟨hnl m hm, fun hc => h0 (hsplit ▸ ?_)⟩,
    hntail, fun hc => h0 (hsplit ▸ List.mem_append_right _ hc)⟩
  exact List.mem_append_left _ (List.mem_flatMap.2 ⟨m, hm, List.mem_append_left _ hc⟩)

/-- From `start` on the buffer holds the lines and the tail. -/
def At (recvStr : CStr) (start : ℕ) (ms : List CStr) (tail : CStr) : Prop :=
  ∃ pre, recvStr = pre ++ (Lines.unlines ms ++ tail) ∧ start = pre.length

theorem findNewline_line (hm : '\n' ∉ m) (pre rest : CStr) :
    findNewline (pre ++ (m ++ '\n' :: rest)) pre.length = some (pre.length + m.length) := by
  have hnone : m.findIdx? (fun x => decide (x = '\n')) = none := by
    rw [List.findIdx?_eq_none_iff]
    intro c hc
    simpa using fun he : c = '\n' => hm (he ▸ hc)
  rw [findNewline, List.drop_left, List.findIdx?_append, hnone]
  simp [List.findIdx?_cons]

theorem findNewline_tail (ht : '\n' ∉ tail) (pre : CStr) :
    findNewline (pre ++ tail) pre.length = none := by
  rw [findNewline, List.drop_left, Option.map_eq_none_iff, List.findIdx?_eq_none_iff]
  intro c hc
  simpa using fun he : c = '\n' => ht (he ▸ hc)

/-- A cut takes the first line, or the tail if there is no line left. -/
theorem At.cut {start : ℕ} (h : At recvStr start ms tail) (hms : ∀ m ∈ ms, IsSegment m)
    (htail : IsSegment tail) :
    cstr ((cutSegment recvStr start).1.drop start) = ms.headD tail ∧
      At (cutSegment recvStr start).1 (cutSegment recvStr start).2 ms.tail tail := by
  obtain ⟨pre, rfl, rfl⟩ := h
  cases ms with
  | nil =>
    have hcut : cutSegment (pre ++ tail) pre.length = (pre ++ tail, pre.length) := by
      rw [cutSegment, findNewline_tail htail.1]
    rw [Lines.unlines_nil, List.nil_append, hcut, List.drop_left, cstr_eq_self htail.2]
    exact ⟨rfl, pre, rfl, rfl⟩
  | cons m ms =>
    obtain ⟨⟨hn, h0⟩, -⟩ := List.forall_mem_cons.1 hms
    have hcut : cutSegment (pre ++ (m ++ '\n' :: (Lines.unlines ms ++ tail))) pre.length =
        (pre ++ (m ++ '\x00' :: (Lines.unlines ms ++ tail)), pre.length + m.length + 1) := by
      rw [cutSegment, findNewline_line hn]
      simp only
      rw [List.set_append_right _ _ (Nat.le_add_right _ _), Nat.add_sub_cancel_left,
        List.set_append_right _ _ (Nat.le_refl _), Nat.sub_self, List.set_cons_zero]
    have hm : cstr (m ++ '\x00' :: (Lines.unlines ms ++ tail)) = m := by
      rw [cstr, List.takeWhile_append_of_pos fun c hc => by
        simpa using fun he : c = '\x00' => h0 (he ▸ hc)]
      simp
    rw [Lines.unlines_cons, List.append_assoc, List.cons_append, hcut, List.drop_left, hm]
    exact ⟨rfl, pre ++ (m ++ ['\x00']), by simp, by simp [Nat.add_assoc]⟩

/-- There is something left to handle. -/
theorem At.loopTest {start : ℕ} (h : At recvStr start ms tail) :
    start < recvStr.length ↔ ms ≠ [] ∨ tail ≠ [] := by
  obtain ⟨pre, rfl, rfl⟩ := h
  cases ms with
  | nil => simp [List.length_pos_iff]
  | cons m ms =>
    refine iff_of_true ?_ (Or.inl (List.cons_ne_nil m ms))
    simp only [Lines.unlines_cons, List.length_append, List.length_cons]
    omega

/-! ## The strings that are handled -/

/-- Handle one string, and keep what the handler returned and did. -/
def handleStr (lim : ImpLimits) (parse : CStr → Option ImpMsg) (connfd : ℕ) (db : Db) (m : CStr) :
    Option (Db × List Outcome) :=
  (handleMsg lim db connfd (parse m)).map fun o => (o.db, [o])

/-- The first `k` strings that are handled : the lines, and then the tail. -/
def handled (ms : List CStr) (tail : CStr) (k : ℕ) : List CStr :=
  (ms ++ List.replicate k tail).take k

@[simp] theorem length_handled (ms : List CStr) (tail : CStr) (k : ℕ) :
    (handled ms tail k).length = k := by
  rw [handled, List.length_take, List.length_append, List.length_replicate]
  omega

theorem handled_succ (ms : List CStr) (tail : CStr) (k : ℕ) :
    handled ms tail (k + 1) = handled ms tail k ++ [(ms.drop k).headD tail] := by
  induction ms generalizing k with
  | nil =>
    rw [handled, handled, List.nil_append, List.nil_append, List.take_replicate,
      List.take_replicate, Nat.min_self, Nat.min_self, List.replicate_succ', List.drop_nil]
    rfl
  | cons m ms ih =>
    cases k with
    | zero => rfl
    | succ k =>
      have hcons : ∀ j, handled (m :: ms) tail (j + 1) = m :: handled ms tail j := by
        intro j
        rw [handled, handled, List.cons_append, List.take_succ_cons, List.replicate_succ',
          ← List.append_assoc, List.take_append_of_le_length]
        simp
      rw [hcons, hcons, ih, List.drop_succ_cons, List.cons_append]

/-- The lines are handled first. -/
theorem handled_of_le (h : k ≤ ms.length) (tail : CStr) : handled ms tail k = ms.take k := by
  rw [handled, List.take_append_of_le_length h]

/-- Behind the lines there is nothing but the tail. -/
theorem handled_add (ms : List CStr) (tail : CStr) (n : ℕ) :
    handled ms tail (ms.length + n) = ms ++ List.replicate n tail := by
  rw [handled, List.take_append, List.take_of_length_le (Nat.le_add_right _ _),
    Nat.add_sub_cancel_left, List.take_replicate, Nat.min_eq_left (Nat.le_add_left _ _)]

/-- What one pass has done behind it. -/
theorem callPass_handles {st' : LoopState} (h : callPass lim parse connfd st = some st') :
    ∃ o, handleStr lim parse connfd st.db
        (cstr ((cutSegment st.recvStr st.start).1.drop st.start)) = some (st'.db, [o]) ∧
      st'.sent = st.sent ++ o.sent ∧ st'.iem = st.iem ++ iemCalls o.ret ∧
      st'.parsed.map Prod.snd = st.parsed.map Prod.snd ++
        [cstr ((cutSegment st.recvStr st.start).1.drop st.start)] := by
  obtain ⟨o, ho, rfl⟩ := Option.map_eq_some_iff.1 h
  exact ⟨o, Option.map_eq_some_iff.2 ⟨o, ho, rfl⟩, rfl, rfl, List.map_append⟩

/-- The loop's record of what it has done is what handling the strings it parsed does. -/
theorem handled_of_reaches {len : ℕ}
    (h : Reaches (callPass lim parse connfd) (loopTest len) (.init db recvStr) st) :
    ∃ os, Machine.run (handleStr lim parse connfd) db (st.parsed.map Prod.snd) =
        some (st.db, os) ∧ st.sent = os.flatMap Outcome.sent ∧
      st.iem = os.flatMap fun o => iemCalls o.ret := by
  induction h with
  | first hs =>
    obtain ⟨o, ho, hsent, hiem, hparsed⟩ := callPass_handles hs
    refine ⟨[o], ?_, by simp [hsent, LoopState.init], by simp [hiem, LoopState.init]⟩
    rw [hparsed]
    exact Machine.run_cons_eq_some.2 ⟨_, [o], [], ho, rfl, rfl⟩
  | @next st _ _ _ hs ih =>
    obtain ⟨os, hrun, hsent, hiem⟩ := ih
    obtain ⟨o, ho, hsent', hiem', hparsed⟩ := callPass_handles hs
    refine ⟨os ++ [o], ?_, by simp [hsent', hsent], by simp [hiem', hiem]⟩
    rw [hparsed, Machine.run_append_eq_some]
    exact ⟨st.db, os, [o], hrun, Machine.run_cons_eq_some.2 ⟨_, [o], [], ho, rfl, rfl⟩, rfl⟩

/-! ## The states of the loop -/

/-- Behind `k` passes over the lines and the tail : the first `k` strings have been handled,
and the buffer still holds the lines from there on. -/
structure Reached (ms : List CStr) (tail : CStr) (k : ℕ) (st : LoopState) : Prop where
  length : st.recvStr.length = (Lines.unlines ms ++ tail).length
  rest : At st.recvStr st.start (ms.drop k) tail
  parsed : st.parsed.map Prod.snd = handled ms tail k

theorem reached_callPass {st' : LoopState} (h : Reached ms tail k st) (hms : ∀ m ∈ ms, IsSegment m)
    (htail : IsSegment tail) (hs : callPass lim parse connfd st = some st') :
    Reached ms tail (k + 1) st' := by
  obtain ⟨hbuf, hstart, -⟩ := callPass_cut hs
  obtain ⟨o, -, -, -, hparsed⟩ := callPass_handles hs
  obtain ⟨hstr, hrest⟩ := h.rest.cut (fun m hm => hms m (List.mem_of_mem_drop hm)) htail
  refine ⟨?_, ?_, ?_⟩
  · rw [hbuf, length_cutSegment, h.length]
  · rwa [hbuf, hstart, ← List.tail_drop]
  · rw [hparsed, hstr, h.parsed, handled_succ]

theorem reached_init (db : Db) (ms : List CStr) (tail : CStr) :
    Reached ms tail 0 (.init db (Lines.unlines ms ++ tail)) :=
  ⟨rfl, ⟨[], rfl, rfl⟩, rfl⟩

theorem reached_loopTest (h : Reached ms tail k st) :
    loopTest (Lines.unlines ms ++ tail).length st = true ↔ k < ms.length ∨ tail ≠ [] := by
  rw [loopTest, decide_eq_true_eq, ← h.length, h.rest.loopTest, ne_eq, List.drop_eq_nil_iff,
    Nat.not_le]

/-- Every state behind a pass, with the number of passes. Without a tail there is one pass
for each line, and one over an empty buffer. -/
theorem exists_reached (hms : ∀ m ∈ ms, IsSegment m) (htail : IsSegment tail)
    (h : Reaches (callPass lim parse connfd) (loopTest (Lines.unlines ms ++ tail).length)
      (.init db (Lines.unlines ms ++ tail)) st) :
    ∃ k, 1 ≤ k ∧ Reached ms tail k st ∧ (tail = [] → k ≤ max 1 ms.length) := by
  induction h with
  | first hs => exact ⟨1, le_rfl, reached_callPass (reached_init db ms tail) hms htail hs, by omega⟩
  | next _ ht hs ih =>
    obtain ⟨k, -, hk, -⟩ := ih
    refine ⟨k + 1, by omega, reached_callPass hk hms htail hs, fun hnil => ?_⟩
    have hlt := ((reached_loopTest hk).1 ht).resolve_right (not_not_intro hnil)
    omega

/-- As long as the strings can be handled, the loop makes its passes. -/
theorem exists_reaches {r : Db × List Outcome} (hms : ∀ m ∈ ms, IsSegment m)
    (htail : IsSegment tail) (hk : 1 ≤ k) (hlast : tail = [] → k ≤ max 1 ms.length)
    (hrun : Machine.run (handleStr lim parse connfd) db (handled ms tail k) = some r) :
    ∃ st, Reaches (callPass lim parse connfd) (loopTest (Lines.unlines ms ++ tail).length)
      (.init db (Lines.unlines ms ++ tail)) st ∧ Reached ms tail k st := by
  have hpass : ∀ k st, Reached ms tail k st → (∃ r, handleStr lim parse connfd st.db
      ((ms.drop k).headD tail) = some r) → ∃ st', callPass lim parse connfd st = some st' := by
    rintro k st hst ⟨r, hr⟩
    obtain ⟨hstr, -⟩ := hst.rest.cut (fun m hm => hms m (List.mem_of_mem_drop hm)) htail
    obtain ⟨o, ho, -⟩ := Option.map_eq_some_iff.1 hr
    rw [← hstr] at ho
    exact ⟨_, Option.map_eq_some_iff.2 ⟨o, ho, rfl⟩⟩
  induction k, hk using Nat.le_induction generalizing r with
  | base =>
    obtain ⟨db', os, _, hs, -, -⟩ :=
      Machine.run_cons_eq_some.1 (handled_succ ms tail 0 ▸ hrun : Machine.run _ _ [_] = some r)
    have hinit := reached_init db ms tail
    obtain ⟨st, hst⟩ := hpass 0 _ hinit ⟨_, hs⟩
    exact ⟨st, .first hst, reached_callPass hinit hms htail hst⟩
  | succ k hk ih =>
    obtain ⟨db₁, os, os', hrun, hlaststep, -⟩ :=
      Machine.run_append_eq_some.1 (handled_succ ms tail k ▸ hrun)
    obtain ⟨st, hreach, hst⟩ := ih (fun hnil => by have := hlast hnil; omega) hrun
    have hdb : st.db = db₁ := by
      obtain ⟨os', hrun', -⟩ := handled_of_reaches hreach
      rw [hst.parsed, hrun] at hrun'
      exact (Prod.mk.inj (Option.some.inj hrun')).1.symm
    obtain ⟨_, _, _, hs, -, -⟩ := Machine.run_cons_eq_some.1 hlaststep
    obtain ⟨st', hst'⟩ := hpass k st hst ⟨_, hdb ▸ hs⟩
    refine ⟨st', .next hreach ?_ hst', reached_callPass hst hms htail hst'⟩
    rw [reached_loopTest hst, or_iff_not_imp_right, not_not]
    intro hnil
    have := hlast hnil
    omega

end Ims

end ClassProjects
