import ClassProjects.Shell.Process

/-!
# The command grammar

A line is cut at `;`, and a segment at `>`. A segment without words and `>` does nothing. One
with words and no `>` invokes the first with all of them, and one with words, one `>` and one
word behind it does so with its output in that file. Every other segment is an error.

`strtok_r` does not tell a segment from the same one without its empty pieces. So the parser
loses a `>` at either end of a segment or next to another one (`lost`), and the shell runs a
segment that is an error, or skips it. A line keeps the grammar if no segment before the first
`exit` loses a `>` ; but behind a `>` at the head of the line the segments are dropped, so they
have to be blank (`mainBody_keeps_grammar_iff`).
-/

namespace ClassProjects

namespace Shell

/-! ## The grammar -/

/-- What is not in a word. -/
def endsWord (c : Char) : Bool :=
  [';', '>', ' ', '\t', '\n'].contains c

/-- The words of a text. -/
def words (s : CStr) : List CStr :=
  Tokens.runs endsWord s

@[simp] theorem words_nil : words [] = [] :=
  rfl

/-- The program is a built-in. -/
def isBuiltin (prog : CStr) : Bool :=
  prog = "exit".toList ∨ prog = "cd".toList ∨ prog = "pwd".toList

/-- What a built-in does : `exit` and `pwd` have no arguments, and `cd` one at most. -/
def builtin (prog : CStr) (args : List CStr) : Effect :=
  if prog = "exit".toList ∧ args = [] then .exit
  else if prog = "cd".toList ∧ args.length ≤ 1 then .changeDir args.head?
  else if prog = "pwd".toList ∧ args = [] then .pathWorkingDir
  else error

/-- Invoke a program with its words, and its output in a file. A built-in has no such file. -/
def invoke (prog : CStr) (args : List CStr) (file : Option CStr) : Effect :=
  if isBuiltin prog then
    match file with
    | none => builtin prog args
    | some _ => error
  else .callProgram prog (prog :: args) file

/-- The meaning of a segment, from the words of the pieces between its `>`. -/
def meaning : List (List CStr) → List Effect
  | [[]] => []
  | [prog :: args] => [invoke prog args none]
  | [prog :: args, [file]] => [invoke prog args (some file)]
  | _ => [error]

/-- The meaning of a segment. -/
def segment (p : CStr) : List Effect :=
  meaning ((p.splitOn '>').map words)

/-- The meaning of a line. -/
def lineMeaning (line : CStr) : List Effect :=
  untilExit ((line.splitOn ';').flatMap segment)

/-! ## The `>` that are lost -/

/-- A built-in with too many arguments. -/
def misused : List CStr → Bool
  | [] => false
  | prog :: args =>
    ((prog = "exit".toList ∨ prog = "pwd".toList) ∧ args ≠ []) ∨
      (prog = "cd".toList ∧ 1 < args.length)

/-- A segment with `n` times `>` is an error, but the words of the pieces that have a character
do not show it. -/
def lost (n : ℕ) : List (List CStr) → Bool
  | [] => 0 < n
  | [ws] => 0 < n ∧ misused ws = false
  | [[], [_]] => true
  | [prog :: _, [_]] => 1 < n ∧ isBuiltin prog = false
  | _ => false

/-- The segment loses a `>`. -/
def loses (p : CStr) : Bool :=
  lost (p.count '>') ((Tokens.runs (· == '>') p).map words)

/-- The segment is an `exit`. -/
def isExit (p : CStr) : Bool :=
  '>' ∉ p ∧ words p = ["exit".toList]

/-- No segment before the first `exit` loses a `>`. -/
def keeps : List CStr → Bool
  | [] => true
  | p :: ps => !loses p && (isExit p || keeps ps)

/-- The lines on which the shell keeps the grammar. -/
def keepsGrammar (cmdBuff : CStr) : Bool :=
  if cmdBuff.head? = some '>' then (cmdBuff.splitOn ';').tail.all blankLine
  else keeps (cmdBuff.splitOn ';')

/-! ## A segment -/

theorem isBuiltin_iff {prog : CStr} : isBuiltin prog = true ↔
    prog = "exit".toList ∨ prog = "cd".toList ∨ prog = "pwd".toList :=
  decide_eq_true_iff

theorem invoke_none {prog : CStr} (h : isBuiltin prog = true) (args : List CStr) :
    invoke prog args none = builtin prog args := by
  rw [invoke, if_pos h]

theorem invoke_some {prog : CStr} (h : isBuiltin prog = true) (args : List CStr) (f : CStr) :
    invoke prog args (some f) = error := by
  rw [invoke, if_pos h]

theorem invoke_of_not {prog : CStr} (h : ¬isBuiltin prog = true) (args : List CStr)
    (file : Option CStr) : invoke prog args file = .callProgram prog (prog :: args) file :=
  if_neg h

theorem processArgs_none (prog : CStr) (args : List CStr) :
    processArgs (prog :: args) 1 none = some (invoke prog args none) := by
  by_cases h : isBuiltin prog = true
  · rw [invoke_none h]
    rcases isBuiltin_iff.1 h with rfl | rfl | rfl
    · cases args <;> simp [processArgs, builtin]
    · rcases args with _ | ⟨a, _ | ⟨b, args⟩⟩ <;> simp [processArgs, builtin]
    · cases args <;> simp [processArgs, builtin]
  · rw [invoke_of_not h]
    simp only [isBuiltin_iff, not_or] at h
    rw [processArgs, if_neg h.1, if_neg h.2.1, if_neg h.2.2]

theorem processArgs_some (prog : CStr) (args : List CStr) (f : CStr) :
    processArgs (prog :: args) 2 (some f) = some (invoke prog args (some f)) := by
  by_cases h : isBuiltin prog = true
  · rw [invoke_some h]
    rcases isBuiltin_iff.1 h with rfl | rfl | rfl <;> simp [processArgs]
  · rw [invoke_of_not h]
    simp only [isBuiltin_iff, not_or] at h
    rw [processArgs, if_neg h.1, if_neg h.2.1, if_neg h.2.2]

/-- A built-in reports an error if it is misused. -/
theorem invoke_none_eq_error (prog : CStr) (args : List CStr) :
    invoke prog args none = error ↔ misused (prog :: args) = true := by
  by_cases h : isBuiltin prog = true
  · rw [invoke_none h]
    rcases isBuiltin_iff.1 h with rfl | rfl | rfl
    · cases args <;> simp [misused, builtin, error]
    · rcases args with _ | ⟨a, _ | ⟨b, args⟩⟩ <;> simp [misused, builtin, error]
    · cases args <;> simp [misused, builtin, error]
  · rw [invoke_of_not h]
    simp only [isBuiltin_iff, not_or] at h
    simp [misused, error, -String.reduceToList, h.1, h.2.1, h.2.2]

/-- The parser finds the words of the pieces that have a character. -/
theorem parseCommand_eq_words {p : CStr} (hp : ';' ∉ p) :
    parseCommand p = (Tokens.runs (· == '>') p).map words := by
  rw [parseCommand_eq]
  refine List.map_congr_left fun t ht => ?_
  rw [parseRedirToken, strtok_eq_runs, words]
  refine Tokens.runs_congr fun c hc => ?_
  obtain ⟨hmem, hgt⟩ := Tokens.mem_of_mem_runs ht hc
  have hsemi : (c == ';') = false := beq_false_of_ne fun h => hp (h ▸ hmem)
  simp only [endsWord, List.contains_cons, hsemi, hgt, Bool.false_or]

theorem meaning_of_nil (ws : List CStr) : meaning [ws, []] = [error] := by
  cases ws <;> rfl

theorem meaning_of_two {ws : List (List CStr)} (h : 2 < ws.length) : meaning ws = [error] := by
  rcases ws with _ | ⟨_ | _, _ | ⟨_, _ | _⟩⟩ <;> simp [meaning] at h ⊢

theorem length_splitOn (c : Char) (p : CStr) : (p.splitOn c).length = p.count c + 1 :=
  Tokens.length_splitOnP (· == c) p

/-- If a segment with a `>` keeps its error, the code finds it. -/
theorem processCommand_eq_error {n : ℕ} {ws : List (List CStr)} (hn : 0 < n)
    (h2 : ws.length = 2 → 1 < n) : processCommand ws = some error ↔ lost n ws = false := by
  match ws with
  | [] => simp [processCommand, lost, hn]
  | [[]] => simp [processCommand, processArgs, lost, misused, hn]
  | [prog :: args] =>
    rw [processCommand, processArgs_none, Option.some.injEq, invoke_none_eq_error]
    simp [lost, hn]
  | [ws, [f]] =>
    have hn1 : 1 < n := h2 rfl
    cases ws with
    | nil => simp [processCommand, processArgs, lost]
    | cons prog args =>
      rw [processCommand, processArgs_some, Option.some.injEq]
      by_cases h : isBuiltin prog = true
      · simp [lost, hn1, h, invoke_some h]
      · simp [lost, hn1, h, invoke_of_not h, error]
  | [_, []] => simp [processCommand, lost]
  | [_, _ :: _ :: _] => simp [processCommand, lost]
  | _ :: _ :: _ :: _ => simp [processCommand, lost]

/-- What the shell does with a segment is its meaning, or the segment loses a `>` : then it is an
error that the shell does not report. -/
def Agrees (lose : Bool) (mean : List Effect) (done : Option Effect) : Prop :=
  if lose then mean = [error] ∧ done ≠ some error else mean = done.toList

theorem agrees_error {lose : Bool} {done : Option Effect} (h : done = some error ↔ lose = false) :
    Agrees lose [error] done := by
  unfold Agrees
  split_ifs with hl
  · exact ⟨rfl, by rw [ne_eq, h, hl]; exact Bool.noConfusion⟩
  · rw [h.2 (Bool.eq_false_iff.2 hl), Option.toList_some]

/-- Without a `>` nothing is lost. -/
theorem agrees_single (ws : List CStr) :
    Agrees (lost 0 [ws]) (meaning [ws]) (processCommand [ws]) := by
  cases ws with
  | nil => exact rfl
  | cons prog args =>
    rw [processCommand, processArgs_none]
    exact rfl

/-- A `>` with a character on both sides is lost if no word is before it and one behind it. -/
theorem agrees_pair (ws₁ ws₂ : List CStr) :
    Agrees (lost 1 [ws₁, ws₂]) (meaning [ws₁, ws₂]) (processCommand [ws₁, ws₂]) := by
  match ws₁, ws₂ with
  | [], [f] => exact ⟨rfl, by simp [processCommand, processArgs]⟩
  | prog :: args, [f] =>
    rw [processCommand, processArgs_some]
    exact rfl
  | [], [] | _ :: _, [] => exact rfl
  | [], _ :: _ :: _ | _ :: _, _ :: _ :: _ => exact rfl

/-- Of the pieces of a segment, those without a character are dropped. -/
theorem segment_agrees {p : CStr} (hp : ';' ∉ p) :
    Agrees (loses p) (segment p) (processCommand (parseCommand p)) := by
  rw [loses, segment, parseCommand_eq_words hp, Tokens.runs, ← List.splitOn_eq_splitOnP]
  have hlen := length_splitOn '>' p
  cases hqs : p.splitOn '>' with
  | nil => exact absurd hqs (List.splitOn_ne_nil '>' p)
  | cons q qs =>
    rw [hqs, List.length_cons, Nat.add_right_cancel_iff] at hlen
    rw [← hlen]
    rcases qs with _ | ⟨q₂, _ | ⟨q₃, qs⟩⟩
    · cases q with
      | nil => exact rfl
      | cons c q => exact agrees_single (words (c :: q))
    · cases q with
      | nil => cases q₂ with
        | nil => exact agrees_error (processCommand_eq_error Nat.one_pos (by simp))
        | cons c q₂ => exact agrees_error (processCommand_eq_error Nat.one_pos (by simp))
      | cons c q => cases q₂ with
        | nil =>
          rw [List.map_cons, List.map_singleton, words_nil, meaning_of_nil]
          exact agrees_error (processCommand_eq_error Nat.one_pos (by simp))
        | cons c' q₂ => exact agrees_pair (words (c :: q)) (words (c' :: q₂))
    · rw [meaning_of_two (by simp)]
      exact agrees_error (processCommand_eq_error (by simp) (by simp))

/-! ## What a segment can mean -/

theorem map_words_eq_singleton {p : CStr} {ws : List CStr} :
    (p.splitOn '>').map words = [ws] ↔ '>' ∉ p ∧ words p = ws := by
  constructor
  · intro h
    have hlen := length_splitOn '>' p
    rw [← List.length_map words, h] at hlen
    have hp : '>' ∉ p := List.count_eq_zero.1 (by simpa using hlen.symm)
    rw [List.splitOn_eq_singleton hp] at h
    exact ⟨hp, List.cons_eq_cons.1 h |>.1⟩
  · rintro ⟨hp, rfl⟩
    rw [List.splitOn_eq_singleton hp, List.map_singleton]

theorem meaning_eq_nil {ws : List (List CStr)} : meaning ws = [] ↔ ws = [[]] := by
  rcases ws with _ | ⟨_ | _, _ | ⟨_ | ⟨_, _ | _⟩, _ | _⟩⟩ <;> simp [meaning]

theorem invoke_eq_exit {prog : CStr} {args : List CStr} {file : Option CStr} :
    invoke prog args file = .exit ↔ prog = "exit".toList ∧ args = [] ∧ file = none := by
  by_cases h : isBuiltin prog = true
  · cases file with
    | none =>
      rw [invoke_none h, builtin]
      split_ifs with he hc hp
      · simpa using he
      all_goals simp_all [error]
    | some f => simp [invoke_some h, error]
  · rw [invoke_of_not h]
    have he : prog ≠ "exit".toList := fun he => h (isBuiltin_iff.2 (Or.inl he))
    simp [he, -String.reduceToList]

theorem meaning_eq_exit {ws : List (List CStr)} :
    meaning ws = [.exit] ↔ ws = [["exit".toList]] := by
  rcases ws with _ | ⟨_ | _, _ | ⟨_ | ⟨_, _ | _⟩, _ | _⟩⟩ <;>
    simp [meaning, invoke_eq_exit, error, -String.reduceToList]

theorem isExit_iff {p : CStr} : isExit p = true ↔ segment p = [.exit] := by
  rw [segment, meaning_eq_exit, map_words_eq_singleton, isExit, decide_eq_true_eq]

/-- A segment that does nothing is blank. -/
theorem segment_eq_nil {p : CStr} (hp : ';' ∉ p) : segment p = [] ↔ blankLine p = true := by
  rw [segment, meaning_eq_nil, map_words_eq_singleton, words, Tokens.runs_eq_nil, blankLine,
    List.all_eq_true]
  constructor
  · rintro ⟨hgt, h⟩ c hc
    have hs : c ≠ ';' := fun he => hp (he ▸ hc)
    have hg : c ≠ '>' := fun he => hgt (he ▸ hc)
    simpa [endsWord, hs, hg, or_iff_not_imp_left] using h c hc
  · intro h
    refine ⟨fun hgt => by simpa using h '>' hgt, fun c hc => ?_⟩
    have hb : c = ' ' ∨ c = '\t' ∨ c = '\n' := by simpa using h c hc
    simp [endsWord, hb]

/-! ## A line -/

/-- What the shell does with the segments of a line. -/
def runSegments (ps : List CStr) : List Effect :=
  untilExit (ps.flatMap fun p => (processCommand (parseCommand p)).toList)

/-- What the segments of a line mean. -/
def meanSegments (ps : List CStr) : List Effect :=
  untilExit (ps.flatMap segment)

theorem runSegments_cons (p : CStr) (ps : List CStr) :
    runSegments (p :: ps) = andThen (processCommand (parseCommand p)) (runSegments ps) := by
  rw [runSegments, List.flatMap_cons, untilExit_toList_append, runSegments]

/-- A segment that loses a `>` means an error, and the shell does not report it. -/
theorem meanSegments_of_loses {p : CStr} (hp : ';' ∉ p) (hl : loses p = true) (ps : List CStr) :
    meanSegments (p :: ps) = error :: meanSegments ps ∧
      processCommand (parseCommand p) ≠ some error := by
  have h := segment_agrees hp
  rw [Agrees, if_pos hl] at h
  rw [meanSegments, List.flatMap_cons, h.1]
  exact ⟨rfl, h.2⟩

/-- Another one means what the shell does. -/
theorem meanSegments_of_not {p : CStr} (hp : ';' ∉ p) (hl : loses p = false) (ps : List CStr) :
    meanSegments (p :: ps) = andThen (processCommand (parseCommand p)) (meanSegments ps) ∧
      (isExit p = true ↔ processCommand (parseCommand p) = some .exit) := by
  have h := segment_agrees hp
  rw [Agrees, if_neg (by simp [hl])] at h
  rw [meanSegments, List.flatMap_cons, isExit_iff, h, untilExit_toList_append]
  refine ⟨rfl, ?_⟩
  cases processCommand (parseCommand p) <;> simp

/-- The shell does not do more than the segments mean. -/
theorem length_runSegments_le {ps : List CStr} (h : ∀ p ∈ ps, ';' ∉ p) :
    (runSegments ps).length ≤ (meanSegments ps).length := by
  induction ps with
  | nil => exact le_rfl
  | cons p ps ih =>
    have hp := h p List.mem_cons_self
    have ih := ih fun q hq => h q (List.mem_cons_of_mem p hq)
    rw [runSegments_cons]
    cases hl : loses p with
    | true =>
      rw [(meanSegments_of_loses hp hl ps).1, List.length_cons]
      exact (length_andThen_le_succ _ _).trans (Nat.succ_le_succ ih)
    | false =>
      rw [(meanSegments_of_not hp hl ps).1]
      exact length_andThen_le _ ih

theorem runSegments_eq_iff {ps : List CStr} (h : ∀ p ∈ ps, ';' ∉ p) :
    runSegments ps = meanSegments ps ↔ keeps ps = true := by
  induction ps with
  | nil => exact iff_of_true rfl rfl
  | cons p ps ih =>
    have hp := h p List.mem_cons_self
    have h : ∀ q ∈ ps, ';' ∉ q := fun q hq => h q (List.mem_cons_of_mem p hq)
    rw [runSegments_cons, keeps]
    cases hl : loses p with
    | true =>
      obtain ⟨hm, ho⟩ := meanSegments_of_loses hp hl ps
      rw [hm]
      refine iff_of_false (andThen_ne_cons ho (length_runSegments_le h)) ?_
      simp
    | false =>
      obtain ⟨hm, he⟩ := meanSegments_of_not hp hl ps
      rw [hm, andThen_inj, ih h, ← he, Bool.not_false, Bool.true_and, Bool.or_eq_true]

/-! ## The line that `main` reads -/

/-- A line of input, and whether a newline ends it or the input does. -/
structure Line where
  text : CStr
  nul : '\x00' ∉ text
  newline : '\n' ∉ text
  length : text.length ≤ 512
  ended : Bool

/-- What `fgets` reads of the line. -/
def Line.buff (l : Line) : CStr :=
  if l.ended then l.text ++ ['\n'] else l.text

/-- A line is printed before it is run, unless it is blank. -/
def echo (cmdBuff : CStr) : List Effect :=
  if blankLine cmdBuff then [] else [.myPrint cmdBuff]

theorem Line.tooLongLine_buff (l : Line) : tooLongLine l.buff = false := by
  have hlen := l.length
  rw [tooLongLine, decide_eq_false_iff_not]
  rintro ⟨h513, hlast⟩
  unfold Line.buff at h513 hlast
  split_ifs at h513 hlast
  · rw [List.length_append, List.length_singleton] at h513
    have h512 : l.text.length = maxCmdline - 2 := by rw [maxCmdline]; omega
    rw [← h512] at hlast
    simp at hlast
  · omega

/-- A newline at the end changes nothing that depends on the words only. -/
theorem map_splitOn_newline {β : Type*} {f : CStr → β} (hf : ∀ p, f (p ++ ['\n']) = f p)
    {c : Char} (hc : c ≠ '\n') (s : CStr) :
    ((s ++ ['\n']).splitOn c).map f = (s.splitOn c).map f := by
  obtain ⟨ps, last, hs, hsn⟩ := Tokens.splitOnP_append (p := (· == c)) (t := ['\n']) s
    (by simpa using hc.symm)
  rw [List.splitOn_eq_splitOnP, List.splitOn_eq_splitOnP, hs, hsn]
  simp [hf]

theorem words_newline (p : CStr) : words (p ++ ['\n']) = words p :=
  Tokens.runs_append_singleton rfl p

theorem segment_newline (p : CStr) : segment (p ++ ['\n']) = segment p := by
  rw [segment, map_splitOn_newline words_newline (by decide), segment]

theorem lineMeaning_newline (line : CStr) : lineMeaning (line ++ ['\n']) = lineMeaning line := by
  rw [lineMeaning, List.flatMap_def, map_splitOn_newline segment_newline (by decide), lineMeaning,
    List.flatMap_def]

theorem Line.lineMeaning_buff (l : Line) : lineMeaning l.buff = lineMeaning l.text := by
  rw [Line.buff]
  split_ifs
  · exact lineMeaning_newline l.text
  · rfl

theorem notMem_of_mem_segments {line p : CStr} (hp : p ∈ line.splitOn ';') : ';' ∉ p :=
  fun h => by simpa using (Tokens.mem_of_mem_splitOnP hp h).2

theorem processCommandLine_parse (line : CStr) :
    processCommandLine (parseCommandLine line) = runSegments (line.splitOn ';') := by
  rw [processCommandLine_eq, parseCommandLine_eq, List.flatMap_map, Tokens.flatMap_runs _ _ rfl]
  rfl

/-- A blank line keeps the grammar. -/
theorem keepsGrammar_of_blank {b : CStr} (hb : blankLine b = true) :
    lineMeaning b = [] ∧ keepsGrammar b = true := by
  have hmem : ∀ c ∈ b, c = ' ' ∨ c = '\t' ∨ c = '\n' := by simpa [blankLine] using hb
  have hsemi : ';' ∉ b := fun h => by simpa using hmem ';' h
  have hgt : b.head? ≠ some '>' := fun h => by simpa using hmem '>' (List.mem_of_head? h)
  have hnil := (segment_eq_nil hsemi).2 hb
  have hm : meanSegments [b] = [] := by simp [meanSegments, hnil]
  rw [lineMeaning, keepsGrammar, if_neg hgt, List.splitOn_eq_singleton hsemi]
  refine ⟨hm, ?_⟩
  cases hl : loses b with
  | true => simp [(meanSegments_of_loses hsemi hl []).1] at hm
  | false => simp [keeps, hl]

/-- Behind a `>` at the head of a line the segments are dropped. -/
theorem lineMeaning_of_head {b : CStr} (h : b.head? = some '>') :
    lineMeaning b = [error] ↔ keepsGrammar b = true := by
  obtain ⟨b, rfl⟩ : ∃ t, b = '>' :: t := List.head?_eq_some_iff.1 h
  rw [keepsGrammar, if_pos h, lineMeaning, List.splitOn_cons_eq_if_modifyHead, if_neg (by decide)]
  have hseg : ∀ p ∈ b.splitOn ';', ';' ∉ p := fun p => notMem_of_mem_segments
  obtain ⟨p, ps, hps⟩ := List.exists_cons_of_ne_nil (List.splitOn_ne_nil ';' b)
  rw [hps] at hseg ⊢
  have herr : segment ('>' :: p) = [error] := by
    obtain ⟨q, qs, hqs⟩ := List.exists_cons_of_ne_nil (List.splitOn_ne_nil '>' p)
    rw [segment, List.splitOn_cons_eq_if_modifyHead, if_pos (beq_self_eq_true '>'), hqs]
    rfl
  have htail : untilExit (List.flatMap segment ps) = [] ↔ ps.all blankLine = true := by
    rw [untilExit_eq_nil, List.flatMap_eq_nil_iff, List.all_eq_true]
    exact forall₂_congr fun q hq => segment_eq_nil (hseg q (List.mem_cons_of_mem p hq))
  rw [List.modifyHead_cons, List.flatMap_cons, herr, List.tail_cons, ← htail]
  simp [untilExit, error]

/-- The shell keeps the grammar on a line if and only if no segment before the first `exit`
loses a `>`, and the line does not begin with a `>` that hides a segment. -/
theorem mainBody_keeps_grammar_iff (l : Line) :
    mainBody l.buff = some (echo l.buff ++ lineMeaning l.text) ↔ keepsGrammar l.buff = true := by
  rw [← l.lineMeaning_buff, mainBody, if_neg (by simp [l.tooLongLine_buff]), echo]
  split_ifs with hb hgt
  · obtain ⟨hm, hk⟩ := keepsGrammar_of_blank hb
    simp [hm, hk]
  · rw [← lineMeaning_of_head hgt]
    simp [eq_comm]
  · rw [processCommandLine_parse, keepsGrammar, if_neg hgt,
      ← runSegments_eq_iff fun p => notMem_of_mem_segments]
    simp [lineMeaning, meanSegments]

/-- `>>` has its error lost : `ls` is run, with its output in the file. -/
theorem redirection_twice : ∃ l : Line, l.text = "ls >> out".toList ∧ l.ended = true ∧
    mainBody l.buff = some [.myPrint "ls >> out\n".toList,
      .callProgram "ls".toList ["ls".toList] (some "out".toList)] ∧
    lineMeaning l.text = [error] ∧
    ¬mainBody l.buff = some (echo l.buff ++ lineMeaning l.text) :=
  ⟨⟨"ls >> out".toList, by decide, by decide, by decide, true⟩, rfl, rfl, by decide, by decide,
    by decide⟩

example : keepsGrammar "cd ; ls -l > out; exit x > f; exit; > a > b\n".toList = true ∧
    keepsGrammar "ls >;pwd\n".toList = false ∧ keepsGrammar " > x\n".toList = false := by
  decide

end Shell

end ClassProjects
