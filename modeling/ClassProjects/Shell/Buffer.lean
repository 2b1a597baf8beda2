import ClassProjects.Lib.Scan
import ClassProjects.Shell.Parse

/-!
# Parsing a command line in place

The parsers of `myshell.c` as they work on the buffer : a token is a pointer into it, and each
`strtok_r` writes a NUL over the delimiter behind its token. The three loops are nested, so the
buffer changes between two calls of the same loop, and every token is read only when all loops
are done.

Each loop leaves what is outside its text as it is (`keepsOthers_parseCommand`), and so the
outer ones are not disturbed. What the tokens point to in the end is what the pure parser of
`Shell.Parse` returns (`parseCommandLine_refines`).
-/

namespace ClassProjects

namespace Shell

namespace Buffer

open Scan

/-- The walk of each `add_` function : behind the last node, if there is one, the new node is
put. -/
def addLast {α : Type*} (x : α) : List α → List α
  | [] => [x]
  | [p] => [p, x]
  | p :: next :: l => p :: addLast x (next :: l)

/-- `Token` : its `str`, a position in the buffer. -/
abbrev Token := ℕ

/-- `RedirToken`. -/
abbrev RedirToken := List Token

/-- `Command`. -/
abbrev Command := List RedirToken

/-- `CommandLine`. -/
abbrev CommandLine := List Command

/-- `add_token`. -/
def addToken (token : Token) (redirToken : RedirToken) : RedirToken :=
  addLast token redirToken

/-- `add_redir_token`. -/
def addRedirToken (redirToken : RedirToken) (cmd : Command) : Command :=
  addLast redirToken cmd

/-- `add_command`. -/
def addCommand (cmd : Command) (cmdLine : CommandLine) : CommandLine :=
  addLast cmd cmdLine

/-- The loop that each parser has : `strtok_r` until it returns `NULL`. A token is not empty, so
there are at most as many as characters. -/
def strtokLoop {β : Type*} (delim : List Char) (parse : List Char → ℕ → Option (β × List Char))
    (add : β → List β → List β) (buf : List Char) (str : ℕ) : Option (List β × List Char) :=
  scan '\x00' (delim.contains ·) parse add (buf.length + 1) buf str []

/-- `create_token`. -/
def createToken (buf : List Char) (str : ℕ) : Option (Token × List Char) :=
  some (str, buf)

/-- `parse_redir_token`. -/
def parseRedirToken (buf : List Char) (redirToken : ℕ) : Option (RedirToken × List Char) :=
  strtokLoop [' ', '\t', '\n'] createToken addToken buf redirToken

/-- `parse_command`. -/
def parseCommand (buf : List Char) (cmd : ℕ) : Option (Command × List Char) :=
  strtokLoop ['>'] parseRedirToken addRedirToken buf cmd

/-- `parse_command_line`. -/
def parseCommandLine (buf : List Char) (cmdBuff : ℕ) : Option (CommandLine × List Char) :=
  strtokLoop [';'] parseCommand addCommand buf cmdBuff

/-! ## Reading the tokens -/

/-- The string a token points to. -/
def readToken (buf : List Char) (token : Token) : CStr :=
  text '\x00' buf token

def readRedirToken (buf : List Char) (redirToken : RedirToken) : Shell.RedirToken :=
  redirToken.map (readToken buf)

def readCommand (buf : List Char) (cmd : Command) : Shell.Command :=
  cmd.map (readRedirToken buf)

def readCommandLine (buf : List Char) (cmdLine : CommandLine) : Shell.CommandLine :=
  cmdLine.map (readCommand buf)

/-- A parser changes only the text it is called on, where it writes NULs. -/
def KeepsOthers {β : Type*} (parse : List Char → ℕ → Option (β × List Char)) : Prop :=
  ∀ pre s post : List Char, '\x00' ∉ s → ∃ x s',
    parse (pre ++ (s ++ '\x00' :: post)) pre.length = some (x, pre ++ (s' ++ '\x00' :: post)) ∧
      Cut '\x00' s s'

variable {β γ : Type*} {parse : List Char → ℕ → Option (β × List Char)}
  {read : List Char → β → γ} {spec : CStr → γ}

theorem keepsOthers_of_parses (h : Parses '\x00' parse read spec) : KeepsOthers parse := by
  intro pre s post hs
  obtain ⟨x, s', hx, hcut, -⟩ := h pre s post hs
  exact ⟨x, s', hx, hcut⟩

/-! ## The loops -/

theorem addLast_eq {α : Type*} (x : α) (l : List α) : addLast x l = l ++ [x] := by
  induction l with
  | nil => rfl
  | cons p l ih =>
    cases l with
    | nil => rfl
    | cons next l => rw [addLast, ih, List.cons_append, List.cons_append, List.cons_append]

/-- A loop over the tokens finds the runs, and the next parser reads each. -/
theorem parses_strtokLoop (h : Parses '\x00' parse read spec) (delim : List Char) :
    Parses '\x00' (strtokLoop delim parse addLast) (fun buf xs => xs.map (read buf))
      (fun s => (strtok delim s).map spec) := by
  simp only [strtok_eq_runs]
  exact h.scan addLast_eq (delim.contains ·)

theorem parses_createToken : Parses '\x00' createToken readToken id :=
  parses_text '\x00'

theorem parses_parseRedirToken :
    Parses '\x00' parseRedirToken readRedirToken Shell.parseRedirToken := by
  have h := parses_strtokLoop parses_createToken [' ', '\t', '\n']
  simp only [List.map_id] at h
  exact h

theorem parses_parseCommand : Parses '\x00' parseCommand readCommand Shell.parseCommand :=
  parses_strtokLoop parses_parseRedirToken ['>']

theorem parses_parseCommandLine :
    Parses '\x00' parseCommandLine readCommandLine Shell.parseCommandLine :=
  parses_strtokLoop parses_parseCommand [';']

theorem keepsOthers_parseRedirToken : KeepsOthers parseRedirToken :=
  keepsOthers_of_parses parses_parseRedirToken

theorem keepsOthers_parseCommand : KeepsOthers parseCommand :=
  keepsOthers_of_parses parses_parseCommand

/-! ## The command line in the buffer -/

/-- The parsers in place return what the pure ones do. -/
theorem parseCommandLine_refines {s : CStr} (h0 : '\x00' ∉ s) (post : List Char) :
    ∃ cmdLine s', parseCommandLine (s ++ '\x00' :: post) 0 =
        some (cmdLine, s' ++ '\x00' :: post) ∧ Cut '\x00' s s' ∧
      readCommandLine (s' ++ '\x00' :: post) cmdLine = Shell.parseCommandLine s := by
  obtain ⟨cmdLine, s', hparse, hcut, hread⟩ := parses_parseCommandLine [] s post h0
  exact ⟨cmdLine, s', hparse, hcut, hread [] post rfl⟩

/-- A string is cut into its runs without `;`, these into their runs without `>`, and these into
their runs without white space. Neither of the inner loops changes anything outside its own
text. -/
theorem parseCommandLine_eq_runs (s post : List Char) (h0 : '\x00' ∉ s) :
    (∃ cmdLine s', parseCommandLine (s ++ '\x00' :: post) 0 =
        some (cmdLine, s' ++ '\x00' :: post) ∧ Cut '\x00' s s' ∧
      readCommandLine (s' ++ '\x00' :: post) cmdLine =
        (Tokens.runs (· == ';') s).map fun cmd =>
          (Tokens.runs (· == '>') cmd).map fun redirToken =>
            Tokens.runs (fun c => c == ' ' || c == '\t' || c == '\n') redirToken) ∧
    KeepsOthers parseCommand ∧ KeepsOthers parseRedirToken := by
  refine ⟨?_, keepsOthers_parseCommand, keepsOthers_parseRedirToken⟩
  obtain ⟨cmdLine, s', hparse, hcut, hread⟩ := parseCommandLine_refines h0 post
  refine ⟨cmdLine, s', hparse, hcut, hread.trans ?_⟩
  have hspace : ([' ', '\t', '\n'].contains · : Char → Bool) =
      fun c => c == ' ' || c == '\t' || c == '\n' := by
    funext c
    simp only [List.contains_cons, List.contains_nil, Bool.or_false, Bool.or_assoc]
  have hredir : Shell.parseRedirToken =
      Tokens.runs fun c => c == ' ' || c == '\t' || c == '\n' := by
    funext redirToken
    rw [Shell.parseRedirToken, strtok_eq_runs, hspace]
  rw [Shell.parseCommandLine_eq]
  refine List.map_congr_left fun cmd _ => ?_
  rw [Shell.parseCommand_eq, hredir]

/-- Empty commands leave no trace, an empty piece does. -/
theorem parseCommandLine_eq_runs_empty :
    ∃ cmdLine s', parseCommandLine (";; > ls -l >> x;".toList ++ ['\x00', 'y']) 0 =
        some (cmdLine, s' ++ ['\x00', 'y']) ∧
      readCommandLine (s' ++ ['\x00', 'y']) cmdLine =
        [[[], ["ls".toList, "-l".toList], ["x".toList]]] := by
  obtain ⟨⟨cmdLine, s', hparse, -, hread⟩, -⟩ :=
    parseCommandLine_eq_runs ";; > ls -l >> x;".toList ['y'] (by decide)
  exact ⟨cmdLine, s', hparse, hread⟩

end Buffer

end Shell

end ClassProjects
