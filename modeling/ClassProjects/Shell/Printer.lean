import ClassProjects.Shell.Parse
import Mathlib.Data.List.Forall2

/-!
# Printing a command line

`print_command_line` and the two functions under it : what is in a list is printed with a
separator between, a blank between words, ` > ` between pieces and ` ; ` between commands.

The blanks of a separator keep an empty piece from being lost when the text is parsed again, and
the newline at the end keeps the last one. So a printed command line is read as it was, but a
command always has a piece, and a line a command (`parse_print`). That prints as the same text
(`print_reparsed`).
-/

namespace ClassProjects

namespace Shell

/-- The loop that each printer has : a separator is printed if there is a next node. -/
def printList {α : Type*} (print : α → CStr) (sep : CStr) : List α → CStr
  | [] => []
  | [cur] => print cur
  | cur :: next :: l => print cur ++ (sep ++ printList print sep (next :: l))

/-- `print_redir_token`. -/
def printRedirToken (redirToken : RedirToken) : CStr :=
  printList id " ".toList redirToken

/-- `print_command`. -/
def printCommand (cmd : Command) : CStr :=
  printList printRedirToken " > ".toList cmd

/-- `print_command_line`. -/
def printCommandLine (cmdLine : CommandLine) : CStr :=
  printList printCommand " ; ".toList cmdLine ++ "\n".toList

/-! ## Printed texts -/

/-- What cuts a line, a command or a piece. -/
def delimiter (c : Char) : Bool :=
  [' ', '\t', '\n', '>', ';'].contains c

/-- A word has a character, and no delimiter. -/
def IsWord (str : CStr) : Prop :=
  str ≠ [] ∧ ∀ c ∈ str, delimiter c = false

/-- The words of a command line are words. -/
def Printable (cmdLine : CommandLine) : Prop :=
  ∀ cmd ∈ cmdLine, ∀ redirToken ∈ cmd, ∀ str ∈ redirToken, IsWord str

/-- A command without a piece gets an empty one. -/
def withPiece : Command → Command
  | [] => [[]]
  | redirToken :: cmd => redirToken :: cmd

/-- What a printed command line is read as. -/
def reparsed : CommandLine → CommandLine
  | [] => [[[]]]
  | cmd :: cmdLine => (cmd :: cmdLine).map withPiece

/-- Blanks, tabs and newlines. -/
def white : List Char :=
  [' ', '\t', '\n']

/-- A text of white space. -/
def White (s : CStr) : Prop :=
  ∀ c ∈ s, white.contains c = true

variable {s u v : CStr} {redirToken : RedirToken} {cmd : Command} {cmdLine : CommandLine}

theorem printList_eq {α : Type*} (print : α → CStr) (sep : CStr) (l : List α) :
    printList print sep l = sep.intercalate (l.map print) := by
  induction l with
  | nil => rfl
  | cons cur l ih =>
    cases l with
    | nil => rw [printList, List.map_singleton, List.intercalate_singleton]
    | cons next l =>
      simp only [printList, ih, List.map_cons, List.intercalate_cons_cons, List.append_assoc]

theorem white_blank : White [' '] :=
  fun _ hc => List.mem_singleton.1 hc ▸ rfl

theorem mem_of_mem_strtok {delim : List Char} {t : CStr} {c : Char}
    (ht : t ∈ strtok delim s) (hc : c ∈ t) : c ∈ s ∧ delim.contains c = false := by
  rw [strtok_eq_runs] at ht
  exact Tokens.mem_of_mem_runs ht hc

/-- The parser returns words. -/
theorem printable_parseCommandLine (s : CStr) : Printable (parseCommandLine s) := by
  intro cmd hcmd redirToken hredir str hstr
  obtain ⟨cmd, hcut, rfl⟩ := List.mem_map.1 hcmd
  obtain ⟨redirToken, hcut', rfl⟩ := List.mem_map.1 hredir
  refine ⟨?_, fun c hc => ?_⟩
  · rw [parseRedirToken, strtok_eq_runs] at hstr
    simpa using (List.mem_filter.1 hstr).2
  · obtain ⟨hc, hspace⟩ := mem_of_mem_strtok hstr hc
    obtain ⟨hc, hredir⟩ := mem_of_mem_strtok hcut' hc
    obtain ⟨-, hsemi⟩ := mem_of_mem_strtok hcut hc
    simp only [List.contains_cons, List.contains_nil, Bool.or_eq_false_iff] at hspace hredir hsemi
    simp only [delimiter, List.contains_cons, List.contains_nil, hspace, hredir, hsemi,
      Bool.or_false]

/-- What is none of the delimiters, or one of some others, is not one of a list. -/
theorem contains_eq_false (others : List Char) {delim : List Char} {c : Char}
    (hc : others.contains c = true ∨ delimiter c = false)
    (hdelim : (delim.all fun c => delimiter c && !others.contains c) = true) :
    delim.contains c = false := by
  by_contra hmem
  have h := List.all_eq_true.1 hdelim c (List.contains_iff_mem.1 (eq_true_of_ne_false hmem))
  rw [Bool.and_eq_true, Bool.not_eq_true'] at h
  rcases hc with hc | hc
  · rw [h.2] at hc
    cases hc
  · rw [h.1] at hc
    cases hc

theorem contains_eq_false_of_white {others delim : List Char}
    (hs : ∀ c ∈ s, others.contains c = true ∨ delimiter c = false) (hu : White u) (hv : White v)
    (hothers : white.all others.contains = true)
    (hdelim : (delim.all fun c => delimiter c && !others.contains c) = true) :
    ∀ c ∈ u ++ (s ++ v), delim.contains c = false := by
  have hwhite : ∀ c, white.contains c = true → others.contains c = true := fun c hc =>
    List.all_eq_true.1 hothers c (List.contains_iff_mem.1 hc)
  intro c hc
  refine contains_eq_false others ?_ hdelim
  rcases List.mem_append.1 hc with hc | hc
  · exact Or.inl (hwhite c (hu c hc))
  · exact (List.mem_append.1 hc).elim (hs c) fun hc => Or.inl (hwhite c (hv c hc))

/-! ## What is printed is read again -/

theorem mem_printRedirToken (h : ∀ str ∈ redirToken, IsWord str) :
    ∀ c ∈ printRedirToken redirToken, white.contains c = true ∨ delimiter c = false := by
  intro c hc
  rw [printRedirToken, printList_eq, List.map_id] at hc
  rcases Tokens.mem_of_mem_intercalate hc with hc | ⟨str, hstr, hc⟩
  · obtain rfl : c = ' ' := by simpa using hc
    exact Or.inl rfl
  · exact Or.inr ((h str hstr).2 c hc)

theorem mem_printCommand (h : ∀ redirToken ∈ cmd, ∀ str ∈ redirToken, IsWord str) :
    ∀ c ∈ printCommand cmd, ('>' :: white).contains c = true ∨ delimiter c = false := by
  intro c hc
  rw [printCommand, printList_eq] at hc
  rcases Tokens.mem_of_mem_intercalate hc with hc | ⟨t, ht, hc⟩
  · have hsep : c = ' ' ∨ c = '>' ∨ c = ' ' := by simpa using hc
    rcases hsep with rfl | rfl | rfl <;> exact Or.inl rfl
  · obtain ⟨redirToken, hredir, rfl⟩ := List.mem_map.1 ht
    refine (mem_printRedirToken (h redirToken hredir) c hc).imp_left fun hc => ?_
    rw [List.contains_cons, hc, Bool.or_true]

/-- The words of a piece, whatever white space is around it. -/
theorem parseRedirToken_print (h : ∀ str ∈ redirToken, IsWord str) (hu : White u) (hv : White v) :
    parseRedirToken (u ++ (printRedirToken redirToken ++ v)) = redirToken := by
  have hparse : ∀ s, parseRedirToken s = Tokens.runs white.contains s := strtok_eq_runs white
  rw [hparse, Tokens.runs_append_of_forall hu, Tokens.runs_append_of_forall_right _ hv,
    printRedirToken, printList_eq, show " ".toList = [' '] from rfl]
  cases redirToken with
  | nil => rfl
  | cons str strs =>
    have hblank : white.contains ' ' = true := rfl
    have hruns := Tokens.map_runs_intercalate id id id (· = []) (· = []) [] ' ' [] hblank rfl rfl
      ?_ (List.cons_ne_nil str strs) rfl rfl
    · simpa only [List.map_id, List.nil_append, List.append_nil] using hruns
    · rintro t ht _ _ rfl rfl
      obtain ⟨hne, hdelim⟩ := h t ht
      rw [List.append_nil, List.nil_append]
      exact ⟨fun c hc => contains_eq_false [] (Or.inr (hdelim c hc)) rfl, hne, rfl⟩

/-- The pieces of a command, whatever white space is around it. -/
theorem parseCommand_print (h : ∀ redirToken ∈ cmd, ∀ str ∈ redirToken, IsWord str)
    (hu : White u) (hv : White v) (hne : v ≠ []) :
    parseCommand (u ++ (printCommand cmd ++ v)) = withPiece cmd := by
  have hpiece : ∀ redirToken : RedirToken, (∀ str ∈ redirToken, IsWord str) → ∀ u v, White u →
      White v ∧ v ≠ [] →
      (∀ c ∈ u ++ (printRedirToken redirToken ++ v), ['>'].contains c = false) ∧
        u ++ (printRedirToken redirToken ++ v) ≠ [] ∧
        parseRedirToken (u ++ (printRedirToken redirToken ++ v)) = redirToken := by
    intro redirToken hredir u v hu ⟨hv, hne⟩
    refine ⟨contains_eq_false_of_white (mem_printRedirToken hredir) hu hv rfl rfl, ?_,
      parseRedirToken_print hredir hu hv⟩
    simp [hne]
  rw [parseCommand, strtok_eq_runs]
  cases cmd with
  | nil =>
    obtain ⟨hc, hne, hparse⟩ := hpiece [] (by simp) u v hu ⟨hv, hne⟩
    exact (congrArg (List.map parseRedirToken) (Tokens.runs_eq_singleton hne hc)).trans
      (congrArg (fun redirToken => [redirToken]) hparse)
  | cons redirToken cmd =>
    rw [printCommand, printList_eq]
    refine (Tokens.map_runs_intercalate printRedirToken parseRedirToken id White
      (fun v => White v ∧ v ≠ []) [' '] '>' [' '] rfl ?_ ?_ (fun t ht => hpiece t (h t ht))
      (List.cons_ne_nil _ _) hu ⟨hv, hne⟩).trans (List.map_id _)
    · exact ⟨white_blank, List.cons_ne_nil ' ' []⟩
    · exact white_blank

/-- A printed command line is read as it was, but each command has a piece and the line has a
command. -/
theorem parse_print (h : Printable cmdLine) :
    parseCommandLine (printCommandLine cmdLine) = reparsed cmdLine := by
  have hnew : White "\n".toList := fun _ hc => List.mem_singleton.1 hc ▸ rfl
  cases cmdLine with
  | nil => rfl
  | cons cmd cmds =>
    rw [parseCommandLine, strtok_eq_runs, printCommandLine, printList_eq]
    have hnil : White [] := fun _ hc => absurd hc List.not_mem_nil
    refine Tokens.map_runs_intercalate printCommand parseCommand withPiece White
      (fun v => White v ∧ v ≠ []) [' '] ';' [' '] rfl ⟨white_blank, List.cons_ne_nil ' ' []⟩
      white_blank (fun cmd hcmd u v hu hv => ?_) (List.cons_ne_nil cmd cmds) hnil
      ⟨hnew, List.cons_ne_nil '\n' []⟩
    refine ⟨contains_eq_false_of_white (mem_printCommand (h cmd hcmd)) hu hv.1 rfl rfl, ?_,
      parseCommand_print (h cmd hcmd) hu hv.1 hv.2⟩
    simp [hv.2]

theorem printCommand_withPiece (cmd : Command) :
    printCommand (withPiece cmd) = printCommand cmd := by
  cases cmd <;> rfl

/-- An empty piece is printed as none is. -/
theorem print_reparsed (cmdLine : CommandLine) :
    printCommandLine (reparsed cmdLine) = printCommandLine cmdLine := by
  cases cmdLine with
  | nil => rfl
  | cons cmd cmds =>
    rw [printCommandLine, reparsed, printList_eq, List.map_map, printCommandLine, printList_eq]
    simp only [Function.comp_def, printCommand_withPiece]

/-- A printed command line is printed again as it is. Read again, a command line without a command
has one with an empty piece, and every other line its commands, where one without a piece may
get an empty one. -/
theorem print_parse_print (s : CStr) :
    printCommandLine (parseCommandLine (printCommandLine (parseCommandLine s))) =
      printCommandLine (parseCommandLine s) ∧
    (parseCommandLine s = [] →
      parseCommandLine (printCommandLine (parseCommandLine s)) = [[[]]]) ∧
    (parseCommandLine s ≠ [] →
      List.Forall₂ (fun cmd cmd' => cmd' = cmd ∨ cmd = [] ∧ cmd' = [[]]) (parseCommandLine s)
        (parseCommandLine (printCommandLine (parseCommandLine s)))) := by
  have hparse := parse_print (printable_parseCommandLine s)
  refine ⟨?_, fun hnil => ?_, fun hne => ?_⟩
  · rw [hparse, print_reparsed]
  · rw [hparse, hnil, reparsed]
  · rw [hparse]
    obtain ⟨cmd, cmds, hcmds⟩ := List.exists_cons_of_ne_nil hne
    rw [hcmds, reparsed, List.forall₂_map_right_iff, List.forall₂_same]
    intro cmd _
    cases cmd with
    | nil => exact Or.inr ⟨rfl, rfl⟩
    | cons redirToken cmd => exact Or.inl rfl

example : printCommandLine (parseCommandLine "ls>;>;> > x".toList) = "ls ;  ;  > x\n".toList := by
  decide

/-- A line without commands. -/
theorem not_reparsed_empty : ¬List.Forall₂ (fun cmd cmd' => cmd' = cmd ∨ cmd = [] ∧ cmd' = [[]])
    (parseCommandLine "".toList)
    (parseCommandLine (printCommandLine (parseCommandLine "".toList))) := by
  intro h
  exact absurd h.length_eq (by decide)

end Shell

end ClassProjects
