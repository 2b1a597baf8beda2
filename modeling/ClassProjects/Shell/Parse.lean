import ClassProjects.CString
import ClassProjects.Lib.Tokens

/-!
# The command line parser

`myshell.c` cuts a line at `;`, each command at `>` and what is between at white space, with
a loop of `strtok_r` each time. A linked list is the list of its elements, in order, and the
tokens are the texts that `strtok_r` delimits.

So a command is its pieces between the `>` that have a character (`parseCommand_eq`), and
a command line its commands that have one (`parseCommandLine_eq`).
-/

namespace ClassProjects

namespace Shell

/-- `RedirToken` : the words of a piece. -/
abbrev RedirToken := List CStr

/-- `Command` : its pieces. -/
abbrev Command := List RedirToken

/-- `CommandLine`. -/
abbrev CommandLine := List Command

/-- `MAX_CMDLINE`. -/
def maxCmdline : ℕ :=
  514

/-- `too_long_line` : the buffer is full, and its line goes on. -/
def tooLongLine (cmdBuff : CStr) : Bool :=
  cmdBuff.length = 513 ∧ cmdBuff.getD (maxCmdline - 2) '\x00' ≠ '\n'

/-- `blank_line`. -/
def blankLine (cmdBuff : CStr) : Bool :=
  cmdBuff.all fun c => !(c ≠ ' ' ∧ c ≠ '\t' ∧ c ≠ '\n')

/-- The loop that each parser has : `strtok_r` until it returns `NULL`. A token is not empty, so
there are at most as many as characters. -/
def strtok (delim : List Char) (str : CStr) : List CStr :=
  Tokens.all (delim.contains ·) str.length str

/-- `parse_redir_token`. -/
def parseRedirToken (redirToken : CStr) : RedirToken :=
  strtok [' ', '\t', '\n'] redirToken

/-- `parse_command`. -/
def parseCommand (cmd : CStr) : Command :=
  (strtok ['>'] cmd).map parseRedirToken

/-- `parse_command_line`. -/
def parseCommandLine (cmdBuff : CStr) : CommandLine :=
  (strtok [';'] cmdBuff).map parseCommand

/-! ## The tokens are the runs -/

theorem strtok_eq_runs (delim : List Char) (str : CStr) :
    strtok delim str = Tokens.runs (delim.contains ·) str :=
  Tokens.all_eq_runs le_rfl

theorem contains_singleton (c : Char) : ([c].contains · : Char → Bool) = (· == c) := by
  funext x
  rw [List.contains_cons, List.contains_nil, Bool.or_false]

theorem parseCommand_eq (cmd : CStr) :
    parseCommand cmd = (Tokens.runs (· == '>') cmd).map parseRedirToken := by
  rw [parseCommand, strtok_eq_runs, contains_singleton]

theorem parseCommandLine_eq (cmdBuff : CStr) :
    parseCommandLine cmdBuff = (Tokens.runs (· == ';') cmdBuff).map parseCommand := by
  rw [parseCommandLine, strtok_eq_runs, contains_singleton]

example :
    parseCommandLine "ls -l >> out ;; > x; pwd\n".toList =
      [[["ls".toList, "-l".toList], ["out".toList]], [[], ["x".toList]], [["pwd".toList]]] := by
  decide

end Shell

end ClassProjects
