import ClassProjects.Shell.Parse

/-!
# Running a command line

What `process_command` does is one effect at most : it prints, or calls one of the functions
for the built-ins, or `call_program`. What these do then is up to the operating system. A
`NULL` is `none`.

`mainBody` is a pass of the loop in `main`, once `fgets` has filled the buffer, up to the next
one. It leaves a line that is too long to the loop that skips the line.
-/

namespace ClassProjects

namespace Shell

/-- A call with an effect outside the shell. -/
inductive Effect
  | myPrint (msg : CStr)
  | changeDir (dir : Option CStr)
  | pathWorkingDir
  | callProgram (progName : CStr) (args : List CStr) (filename : Option CStr)
  | exit
deriving DecidableEq

/-- `error`. -/
def error : Effect :=
  .myPrint "An error has occurred\n".toList

/-- `process_command` from the arguments on. -/
def processArgs (args : List CStr) (redirCnt : ℕ) (filename : Option CStr) : Option Effect :=
  match args with
  | [] => none
  | progName :: _ =>
    if progName = "exit".toList then
      if args.length ≠ 1 ∨ redirCnt ≠ 1 then some error else some .exit
    else if progName = "cd".toList then
      if (args.length ≠ 1 ∧ args.length ≠ 2) ∨ redirCnt ≠ 1 then some error
      else some (.changeDir args[1]?)
    else if progName = "pwd".toList then
      if args.length ≠ 1 ∨ redirCnt ≠ 1 then some error else some .pathWorkingDir
    else some (.callProgram progName args filename)

/-- `process_command`. -/
def processCommand : Command → Option Effect
  | [] => none
  | [tokens] => processArgs tokens 1 none
  | [tokens, [filename]] => processArgs tokens 2 (some filename)
  | [_, _] => some error
  | _ :: _ :: _ :: _ => some error

/-- `process_command_line`. -/
def processCommandLine : CommandLine → List Effect
  | [] => []
  | cmd :: next =>
    match processCommand cmd with
    | none => processCommandLine next
    | some .exit => [.exit]
    | some e => e :: processCommandLine next

/-- The loop of `main`, from a buffer to the next : `none` if the line is too long. -/
def mainBody (cmdBuff : CStr) : Option (List Effect) :=
  if tooLongLine cmdBuff then none
  else if blankLine cmdBuff then some []
  else if cmdBuff.head? = some '>' then some [.myPrint cmdBuff, error]
  else some (.myPrint cmdBuff :: processCommandLine (parseCommandLine cmdBuff))

/-- Nothing is done behind an `exit`. -/
def untilExit : List Effect → List Effect
  | [] => []
  | e :: es => if e = .exit then [e] else e :: untilExit es

@[simp] theorem untilExit_eq_nil {es : List Effect} : untilExit es = [] ↔ es = [] := by
  cases es with
  | nil => simp [untilExit]
  | cons e es =>
    rw [untilExit]
    split_ifs <;> simp

/-- One effect, if there is one, and what is done behind it. -/
def andThen : Option Effect → List Effect → List Effect
  | none, es => es
  | some e, es => if e = .exit then [e] else e :: es

theorem untilExit_toList_append (o : Option Effect) (es : List Effect) :
    untilExit (o.toList ++ es) = andThen o (untilExit es) := by
  cases o <;> rfl

/-- A command line does what its commands do, until an `exit`. -/
theorem processCommandLine_eq (cmds : CommandLine) :
    processCommandLine cmds = untilExit (cmds.flatMap fun cmd => (processCommand cmd).toList) := by
  induction cmds with
  | nil => rfl
  | cons cmd cmds ih =>
    rw [processCommandLine, List.flatMap_cons, untilExit_toList_append, ih]
    cases processCommand cmd with
    | none => rfl
    | some e => cases e <;> rfl

theorem exit_mem_untilExit {es : List Effect} : .exit ∈ untilExit es ↔ .exit ∈ es := by
  induction es with
  | nil => rfl
  | cons e es ih =>
    rw [untilExit]
    split_ifs with he
    · simp [he]
    · rw [List.mem_cons, List.mem_cons, ih]

theorem processArgs_eq_exit {args : List CStr} {redirCnt : ℕ} {filename : Option CStr} :
    processArgs args redirCnt filename = some .exit ↔
      args = ["exit".toList] ∧ redirCnt = 1 := by
  cases args with
  | nil => simp [processArgs]
  | cons progName args =>
    rw [processArgs]
    split_ifs with hexit hcnt
    · simp only [error, Option.some.injEq, reduceCtorEq, false_iff]
      rintro ⟨hargs, hredir⟩
      rw [hargs] at hcnt
      exact hcnt.elim (absurd rfl) (absurd hredir)
    · rw [not_or, not_not, not_not, List.length_cons, Nat.add_eq_right,
        List.length_eq_zero_iff] at hcnt
      simp [hexit, hcnt]
    all_goals simp [error, hexit, -String.reduceToList]

theorem processCommand_eq_exit {cmd : Command} :
    processCommand cmd = some .exit ↔ cmd = [["exit".toList]] := by
  rcases cmd with _ | ⟨tokens, _ | ⟨_ | ⟨filename, _ | ⟨_, _⟩⟩, _ | ⟨_, _⟩⟩⟩ <;>
    simp [processCommand, processArgs_eq_exit, error, -String.reduceToList]

/-- A command line executes `exit` if a command of it is that word alone. -/
theorem exit_mem_processCommandLine {cmds : CommandLine} :
    .exit ∈ processCommandLine cmds ↔ [["exit".toList]] ∈ cmds := by
  rw [processCommandLine_eq, exit_mem_untilExit, List.mem_flatMap]
  simp only [Option.mem_toList, processCommand_eq_exit, exists_eq_right]

theorem andThen_inj {o : Option Effect} {es es' : List Effect} :
    andThen o es = andThen o es' ↔ o = some .exit ∨ es = es' := by
  cases o with
  | none => simp [andThen]
  | some e =>
    rw [andThen, andThen]
    split_ifs with he <;> simp [he]

theorem length_andThen_le_succ (o : Option Effect) (es : List Effect) :
    (andThen o es).length ≤ es.length + 1 := by
  cases o with
  | none => exact Nat.le_succ _
  | some e =>
    rw [andThen]
    split_ifs <;> simp

theorem length_andThen_le (o : Option Effect) {es es' : List Effect}
    (h : es.length ≤ es'.length) : (andThen o es).length ≤ (andThen o es').length := by
  cases o with
  | none => exact h
  | some e =>
    rw [andThen, andThen]
    split_ifs <;> simp [h]

/-- What begins with another effect, or is shorter, differs. -/
theorem andThen_ne_cons {o : Option Effect} {e : Effect} {es es' : List Effect}
    (ho : o ≠ some e) (h : es.length ≤ es'.length) : andThen o es ≠ e :: es' := by
  intro heq
  cases o with
  | none =>
    have hlen := congrArg List.length heq
    rw [andThen, List.length_cons] at hlen
    omega
  | some e' =>
    rw [andThen] at heq
    split_ifs at heq
    all_goals exact ho (congrArg some (List.cons_eq_cons.1 heq).1)

theorem untilExit_append (es es' : List Effect) : untilExit (es ++ es') =
    if .exit ∈ es then untilExit es else es ++ untilExit es' := by
  induction es with
  | nil => rfl
  | cons e es ih =>
    rw [List.cons_append, untilExit, untilExit, ih]
    by_cases he : e = .exit
    · rw [if_pos he, if_pos he, if_pos (he ▸ List.mem_cons_self)]
    · have hmem : Effect.exit ∈ e :: es ↔ Effect.exit ∈ es := by
        rw [List.mem_cons, or_iff_right (Ne.symm he)]
      rw [if_neg he, if_neg he, if_congr hmem rfl rfl]
      split_ifs <;> rfl

/-- Nothing of a line is behind an `exit`. -/
theorem untilExit_mainBody {s : CStr} {es : List Effect} (h : mainBody s = some es) :
    untilExit es = es := by
  have hidem : ∀ es : List Effect, untilExit (untilExit es) = untilExit es := by
    intro es
    induction es with
    | nil => rfl
    | cons e es ih =>
      rw [untilExit]
      split_ifs with he
      · rw [untilExit, if_pos he]
      · rw [untilExit, if_neg he, ih]
  rw [mainBody] at h
  split_ifs at h <;> cases h
  · rfl
  · rfl
  · rw [untilExit, if_neg (by simp), processCommandLine_eq, hidem]

end Shell

end ClassProjects
