import ClassProjects.Shell.Reader
import Mathlib.Logic.Function.Basic

/-!
# The effects on a host

`change_dir`, `path_working_dir` and `call_program`, on a host that has a working directory,
files and a terminal. What the operating system and the programs do is a parameter (`Os`), and
depends on the host only. `waitpid` is assumed to succeed on a child, so the shell waits for
every program.

`call_program` opens the file of a redirection with `O_EXCL`, before the program is looked up.
So a file that exists is never written to, and a name that has been redirected to is taken for
the rest of the run (`redirect_once`). Only the standard output is redirected. If the program is
not found, the message goes where its standard output would have gone.
-/

namespace ClassProjects

namespace Shell

open DoWhile

/-- The working directory, the files by what names mean, and what is on the terminal. -/
structure Host where
  cwd : CStr
  files : CStr → Option CStr
  terminal : CStr

/-- Where a program writes. -/
inductive Descriptor
  | stdout | stderr
deriving DecidableEq

/-- What the shell asks the operating system. `path` is the file that a name means in a
directory, `creates` whether a file that does not exist can be created, `forks` whether `fork`
succeeds, and `execvp` what a program writes and the files that it leaves, if it is found. -/
structure Os where
  home : Option CStr
  path : CStr → CStr → CStr
  chdir : Host → CStr → Option CStr
  getcwd : Host → Option CStr
  creates : Host → CStr → Bool
  forks : Host → Bool
  execvp : Host → CStr → List CStr → Option (List (Descriptor × CStr) × (CStr → Option CStr))

/-- `my_print`. -/
def Host.myPrint (h : Host) (msg : CStr) : Host :=
  { h with terminal := h.terminal ++ msg }

/-- The message of `error`. -/
def errorMsg : CStr :=
  "An error has occurred\n".toList

/-- What is written to the descriptor. -/
def written (fd : Descriptor) (writes : List (Descriptor × CStr)) : CStr :=
  (writes.filter fun w => w.1 = fd).flatMap Prod.snd

/-- Write to a file that is open. If it has been deleted, nobody sees what is written. -/
def write (files : CStr → Option CStr) (p : CStr) (out : CStr) : CStr → Option CStr :=
  match files p with
  | none => files
  | some c => Function.update files p (some (c ++ out))

variable (os : Os)

/-- `change_dir`. -/
def changeDir (dir : Option CStr) (h : Host) : Host :=
  match (dir.or os.home).bind (os.chdir h) with
  | none => h.myPrint errorMsg
  | some cwd => { h with cwd := cwd }

/-- `path_working_dir`. -/
def pathWorkingDir (h : Host) : Host :=
  match os.getcwd h with
  | none => h.myPrint errorMsg
  | some buf => (h.myPrint buf).myPrint "\n".toList

/-- What a program writes and the files that it leaves, or the message that the child prints if
it is not found. -/
def output (h : Host) (progName : CStr) (args : List CStr) :
    List (Descriptor × CStr) × (CStr → Option CStr) :=
  (os.execvp h progName args).getD ([(.stdout, errorMsg)], h.files)

/-- `call_program`. If `fork` fails, there is no child to wait for, which is an error as well. -/
def callProgram (progName : CStr) (args : List CStr) (filename : Option CStr) (h : Host) : Host :=
  if os.forks h = false then h.myPrint errorMsg
  else
    match filename with
    | none =>
      let r := output os h progName args
      { h with files := r.2, terminal := h.terminal ++ r.1.flatMap Prod.snd }
    | some name =>
      let fd := os.path h.cwd name
      if (h.files fd).isSome ∨ os.creates h fd = false then h.myPrint errorMsg
      else
        let h := { h with files := Function.update h.files fd (some []) }
        let r := output os h progName args
        { h with
          files := write r.2 fd (written .stdout r.1)
          terminal := h.terminal ++ written .stderr r.1 }

/-- An effect on a host. -/
def perform (e : Effect) (h : Host) : Host :=
  match e with
  | .myPrint msg => h.myPrint msg
  | .changeDir dir => changeDir os dir h
  | .pathWorkingDir => pathWorkingDir os h
  | .callProgram progName args filename => callProgram os progName args filename h
  | .exit => h

/-- The effects of a run, one after the other. -/
def performAll (es : List Effect) (h : Host) : Host :=
  es.foldl (fun h e => perform os e h) h

/-- No program changes a file that exists. -/
def Os.Keeps : Prop :=
  ∀ h progName args writes files, os.execvp h progName args = some (writes, files) →
    ∀ p c, h.files p = some c → files p = some c

variable {os} {h : Host} {e : Effect} {es : List Effect} {p c name progName : CStr}
  {args : List CStr}

/-! ## Files are kept -/

theorem output_keeps (hos : os.Keeps) (h : Host) (progName : CStr) (args : List CStr)
    (hp : h.files p = some c) : (output os h progName args).2 p = some c := by
  unfold output
  cases hexec : os.execvp h progName args with
  | none => exact hp
  | some r => exact hos h progName args r.1 r.2 hexec p c hp

/-- What is written to the file of a redirection is all that it has. -/
theorem write_output (hos : os.Keeps) (h : Host) (fd : CStr) (progName : CStr)
    (args : List CStr) (out : CStr) :
    let h' := { h with files := Function.update h.files fd (some []) }
    let r := output os h' progName args
    write r.2 fd out = Function.update r.2 fd (some out) := by
  intro h' r
  have hempty : r.2 fd = some [] :=
    output_keeps hos h' progName args (Function.update_self fd (some []) h.files)
  rw [write, hempty]
  rfl

/-- An effect keeps the files that exist. -/
theorem perform_keeps (hos : os.Keeps) (e : Effect) (hp : h.files p = some c) :
    (perform os e h).files p = some c := by
  cases e with
  | myPrint msg => exact hp
  | changeDir dir =>
    rw [perform, changeDir]
    split <;> exact hp
  | pathWorkingDir =>
    rw [perform, pathWorkingDir]
    split <;> exact hp
  | callProgram progName args filename =>
    cases filename with
    | none =>
      rw [perform, callProgram]
      split_ifs
      · exact hp
      · exact output_keeps hos h progName args hp
    | some name =>
      rw [perform, callProgram]
      split_ifs with hfork
      · exact hp
      · dsimp only
        split_ifs with hopen
        · exact hp
        · -- the file of the redirection did not exist
          have hne : p ≠ os.path h.cwd name := by
            rintro rfl
            exact hopen (Or.inl (hp ▸ rfl))
          dsimp only
          rw [write_output hos, Function.update_of_ne hne]
          exact output_keeps hos _ progName args ((Function.update_of_ne hne _ _).trans hp)
  | exit => exact hp

theorem performAll_keeps (hos : os.Keeps) (es : List Effect) (hp : h.files p = some c) :
    (performAll os es h).files p = some c := by
  induction es generalizing h with
  | nil => exact hp
  | cons e es ih => exact ih (perform_keeps hos e hp)

theorem performAll_append (es es' : List Effect) (h : Host) :
    performAll os (es ++ es') h = performAll os es' (performAll os es h) :=
  List.foldl_append

/-! ## Redirections -/

/-- `fork` or `open` fails. -/
def Refused (os : Os) (h : Host) (name : CStr) : Prop :=
  os.forks h = false ∨ (h.files (os.path h.cwd name)).isSome ∨
    os.creates h (os.path h.cwd name) = false

theorem perform_of_refused (hr : Refused os h name) (progName : CStr) (args : List CStr) :
    perform os (.callProgram progName args (some name)) h = h.myPrint errorMsg := by
  rw [perform, callProgram]
  split_ifs with hfork
  · rfl
  · exact if_pos (hr.resolve_left hfork)

/-- A file that is created has what the program writes to its standard output, and the terminal
what it writes to its standard error. -/
theorem perform_of_not_refused (hos : os.Keeps) (hr : ¬Refused os h name) (progName : CStr)
    (args : List CStr) :
    let writes := (output os
      { h with files := Function.update h.files (os.path h.cwd name) (some []) } progName args).1
    (perform os (.callProgram progName args (some name)) h).terminal =
        h.terminal ++ written .stderr writes ∧
      (perform os (.callProgram progName args (some name)) h).files (os.path h.cwd name) =
        some (written .stdout writes) := by
  intro writes
  obtain ⟨hfork, hopen⟩ := not_or.1 hr
  have hcall : perform os (.callProgram progName args (some name)) h =
      { h with
        files := write (output os
            { h with files := Function.update h.files (os.path h.cwd name) (some []) }
            progName args).2 (os.path h.cwd name) (written .stdout writes)
        terminal := h.terminal ++ written .stderr writes } := by
    rw [perform, callProgram, if_neg hfork]
    exact if_neg hopen
  rw [hcall]
  refine ⟨rfl, ?_⟩
  dsimp only
  rw [write_output hos, Function.update_self]

/-! ## Runs of the shell -/

theorem untilExit_of_notMem (h : .exit ∉ es) : untilExit es = es := by
  have hes := untilExit_append es []
  rwa [if_neg h, List.append_nil, untilExit, List.append_nil] at hes

/-- Nothing has been done behind an `exit`, and none if the loop goes on. -/
def Stopped {σ : Type} (st : Reader σ) : Prop :=
  untilExit st.out = st.out ∧ (st.ended = none → .exit ∉ st.out)

section Loop

variable {σ : Type} {input : Input σ} {interactive : Bool} {st st' : Reader σ}

theorem out_fill (input : Input σ) (st : Reader σ) : (st.fill input).2.out = st.out := by
  rw [Reader.fill]
  split <;> rfl

/-- While a line is skipped it is only printed. -/
theorem exit_notMem_skipLine {fuel : ℕ} (h : skipLine input fuel st = some st')
    (hst : .exit ∉ st.out) : .exit ∉ st'.out := by
  obtain ⟨hreach, -⟩ := returns_iff.1 ⟨fuel, h⟩
  refine hreach.spec (I := fun st : Reader σ => .exit ∉ st.out)
    (J := fun st : Reader σ => .exit ∉ st.out) (fun st st' hst hs => ?_) (fun st hst _ => hst) hst
  obtain rfl := Option.some.inj hs
  rw [out_fill]
  simpa [Reader.print] using hst

theorem stopped_readPass {fuel : ℕ} (h : readPass input interactive fuel st = some st')
    (hst : .exit ∉ st.out) : Stopped st' := by
  have hprompt : .exit ∉ st.out ++ prompt interactive := by
    cases interactive <;> simpa [prompt] using hst
  have hfill := out_fill input { st with out := st.out ++ prompt interactive }
  rw [readPass] at h
  generalize Reader.fill input _ = r at *
  obtain ⟨pinput, st₁⟩ := r
  simp only at hfill h
  cases pinput with
  | false =>
    obtain rfl := Option.some.inj h
    rw [← hfill] at hprompt
    exact ⟨untilExit_of_notMem hprompt, fun _ => hprompt⟩
  | true =>
    rw [← hfill] at hprompt
    simp only [Bool.not_true, Bool.false_eq_true, if_false] at h
    cases hbody : mainBody st₁.cmdBuff with
    | none =>
      rw [hbody] at h
      obtain ⟨st₂, hskip, rfl⟩ := Option.map_eq_some_iff.1 h
      have hout : .exit ∉ st₂.endSkip.out := by
        simpa [Reader.endSkip, Reader.print, error] using exit_notMem_skipLine hskip hprompt
      exact ⟨untilExit_of_notMem hout, fun _ => hout⟩
    | some effects =>
      rw [hbody] at h
      obtain rfl := Option.some.inj h
      refine ⟨?_, fun hended => ?_⟩
      · rw [Reader.handOn, untilExit_append, if_neg hprompt, untilExit_mainBody hbody]
      · simp only [Reader.handOn, ite_eq_right_iff, reduceCtorEq, imp_false] at hended
        simp only [Reader.handOn, List.mem_append, not_or]
        exact ⟨hprompt, by simpa using hended⟩

/-- Nothing is done behind an `exit`. -/
theorem untilExit_out {source : σ} (hreach : mainReaches input interactive source st) :
    untilExit st.out = st.out := by
  obtain ⟨fuel, hreach⟩ := hreach
  refine (hreach.spec (I := fun st : Reader σ => .exit ∉ st.out) (J := Stopped)
    (fun st st' hst hpass => stopped_readPass hpass hst) (fun st hst ht => ?_)
    List.not_mem_nil).1
  exact hst.2 (Option.isNone_iff_eq_none.1 ht)

end Loop

theorem exit_notMem_of_untilExit {es es' : List Effect} (h : untilExit (es ++ e :: es') =
    es ++ e :: es') : .exit ∉ es := by
  intro hmem
  have hlen : ∀ es : List Effect, (untilExit es).length ≤ es.length := by
    intro es
    induction es with
    | nil => exact le_refl _
    | cons e es ih =>
      rw [untilExit]
      split_ifs
      · exact Nat.succ_le_succ (Nat.zero_le _)
      · exact Nat.succ_le_succ ih
  rw [untilExit_append, if_pos hmem] at h
  have hle := hlen es
  rw [h, List.length_append, List.length_cons] at hle
  omega

/-- While the shell runs no file that exists is changed, and every redirection that is carried
out is one of three : `fork` or `open` fails, and all that happens is a message ; or the file is
created, and holds what the program wrote to its standard output for the rest of the run, only
what it wrote to its standard error goes to the terminal, and every later redirection to the file
fails. -/
theorem redirect_once (hos : os.Keeps) (h : Host) {σ : Type} {input : Input σ}
    {interactive : Bool} {source : σ} {st : Reader σ}
    (hreach : mainReaches input interactive source st) :
    (∀ p c, h.files p = some c → (performAll os st.out h).files p = some c) ∧
    ∀ es progName args name es',
      st.out = es ++ .callProgram progName args (some name) :: es' →
      let h₁ := performAll os es h
      let h₂ := perform os (.callProgram progName args (some name)) h₁
      let fd := os.path h₁.cwd name
      let writes := (output os { h₁ with files := Function.update h₁.files fd (some []) }
        progName args).1
      .exit ∉ es ∧ (Refused os h₁ name → h₂ = h₁.myPrint errorMsg) ∧
      (¬Refused os h₁ name → h₂.terminal = h₁.terminal ++ written .stderr writes ∧
        (performAll os st.out h).files fd = some (written .stdout writes) ∧
        ∀ later progName' args' name' es'',
          es' = later ++ .callProgram progName' args' (some name') :: es'' →
          os.path (performAll os later h₂).cwd name' = fd →
          perform os (.callProgram progName' args' (some name')) (performAll os later h₂) =
            (performAll os later h₂).myPrint errorMsg) := by
  refine ⟨fun p c hp => performAll_keeps hos st.out hp, ?_⟩
  intro es progName args name es' hout h₁ h₂ fd writes
  have hexit : .exit ∉ es := by
    have hall := untilExit_out hreach
    rw [hout] at hall
    exact exit_notMem_of_untilExit hall
  refine ⟨hexit, fun hr => perform_of_refused hr progName args, fun hr => ?_⟩
  obtain ⟨hterminal, hfile⟩ := perform_of_not_refused hos hr progName args
  have hend : performAll os st.out h = performAll os es' h₂ := by
    rw [hout, performAll_append]
    rfl
  refine ⟨hterminal, ?_, ?_⟩
  · rw [hend]
    exact performAll_keeps hos es' hfile
  · intro later progName' args' name' es'' _ hpath
    refine perform_of_refused (Or.inr (Or.inl ?_)) progName' args'
    rw [hpath, performAll_keeps hos later hfile]
    rfl

/-- A host with one program, which prints its arguments and complains. -/
def echoOs : Os where
  home := none
  path _ name := name
  chdir _ _ := none
  getcwd h := some h.cwd
  creates _ _ := true
  forks _ := true
  execvp h progName args :=
    if progName = "echo".toList then
      some ([(.stdout, args.tail.flatten), (.stderr, "!".toList)], h.files)
    else none

theorem keeps_echoOs : echoOs.Keeps := by
  intro h progName args writes files hexec p c hp
  dsimp only [echoOs] at hexec
  split_ifs at hexec
  obtain ⟨-, rfl⟩ := Prod.mk.inj (Option.some.inj hexec)
  exact hp

/-- The second redirection to a file does not change it. -/
theorem redirect_once_echo :
    ∃ st, mainReaches stream false "echo a > f\nls > f\n".toList st ∧
      (performAll echoOs st.out ⟨[], fun _ => none, []⟩).files "f".toList = some "a".toList := by
  have hreach : mainReaches stream false "echo a > f\nls > f\n".toList
      ⟨[], "ls > f\n".toList, 2, ["echo a > f\n".toList, "ls > f\n".toList],
        "echo a > f\nls > f\n".toList,
        [.myPrint "echo a > f\n".toList,
          .callProgram "echo".toList ["echo".toList, "a".toList] (some "f".toList),
          .myPrint "ls > f\n".toList, .callProgram "ls".toList ["ls".toList] (some "f".toList)],
        none⟩ := ⟨0, .next (.first rfl) rfl rfl⟩
  obtain ⟨-, hall⟩ := redirect_once keeps_echoOs ⟨[], fun _ => none, []⟩ hreach
  obtain ⟨-, -, hopen⟩ := hall [.myPrint "echo a > f\n".toList] _ _ _ _ rfl
  have hfree : ¬Refused echoOs (performAll echoOs [.myPrint "echo a > f\n".toList]
      ⟨[], fun _ => none, []⟩) "f".toList := by
    rintro (hr | hr | hr) <;> cases hr
  exact ⟨_, hreach, (hopen hfree).2.1⟩

end Shell

end ClassProjects
