import ClassProjects.Lib.Heap
import ClassProjects.Shell.Buffer
import ClassProjects.Shell.Process

/-!
# The memory of the shell

The parsers of `myshell.c` with the nodes they allocate, `process_command` with the array it
allocates, and the functions that free what the parsers built. A pointer is an address or
`NULL`, and an access to memory that is not allocated goes wrong (`none`), as does a block that
is freed twice. `malloc` never fails. The buffer that `path_working_dir` gets from `getcwd` and
frees again is left out.

What the parsers build are the lists of `Shell.Buffer` (`Builds`), and they leave the rest of
the memory alone. `destroy_command_line` frees all of it. The array of `process_command` is freed by
nobody, so every command with a word leaves one behind (`handleLine_spec`), and after any lines
the memory in use is what was in use before and these arrays (`session_leaks`).
-/

namespace ClassProjects

namespace Shell

namespace Memory

open Heap

/-! ## The structures -/

/-- `Token`, `RedirToken` and `Command`, and the array of arguments. A string is a position in
the buffer. -/
inductive Block
  | token (str : ℕ) (next : Option ℕ)
  | redirToken (tokens next : Option ℕ)
  | command (rtokens next : Option ℕ)
  | args (strs : List ℕ)
deriving DecidableEq

instance : Linked Block where
  next
    | .token _ next => some next
    | .redirToken _ next => some next
    | .command _ next => some next
    | .args _ => none
  setNext
    | .token str _, next => .token str next
    | .redirToken tokens _, next => .redirToken tokens next
    | .command rtokens _, next => .command rtokens next
    | .args strs, _ => .args strs

/-- `str` of a `Token`. -/
def Block.str : Block → Option ℕ
  | .token str _ => some str
  | _ => none

/-- How many arguments an array has. -/
def Block.argCnt : Block → Option ℕ
  | .args strs => some strs.length
  | _ => none

/-- A `Token`. -/
def tokenNode : Node Block ℕ where
  block := .token
  own _ := 0
  next_block _ _ := rfl
  setNext_block _ _ _ := rfl

/-- A `RedirToken` has the field `tokens`. -/
def redirToken : Owner Block where
  block := .redirToken
  list
    | .redirToken tokens _ => some tokens
    | _ => none
  setList
    | .redirToken _ next, tokens => .redirToken tokens next
    | b, _ => b
  list_block _ _ := rfl
  setList_block _ _ _ := rfl
  next_block _ _ := rfl
  setNext_block _ _ _ := rfl

/-- A `Command` has the field `rtokens`. -/
def command : Owner Block where
  block := .command
  list
    | .command rtokens _ => some rtokens
    | _ => none
  setList
    | .command _ next, rtokens => .command rtokens next
    | b, _ => b
  list_block _ _ := rfl
  setList_block _ _ _ := rfl
  next_block _ _ := rfl
  setNext_block _ _ _ := rfl

/-- The buffer of the line, and the heap. -/
structure Mem where
  buf : List Char
  heap : Heap Block

variable (A : Allocator)

/-! ## Parsing -/

/-- `create_token`. -/
def createToken (m : Mem) (str : ℕ) : Option (ℕ × Mem) :=
  let r := m.heap.malloc A (.token str none)
  some (r.1, ⟨m.buf, r.2⟩)

/-- `add_token`. -/
def addToken (h : Heap Block) (token rt : ℕ) : Option (Heap Block) :=
  redirToken.add h token rt

/-- `add_redir_token`. -/
def addRedirToken (h : Heap Block) (rt cmd : ℕ) : Option (Heap Block) :=
  command.add h rt cmd

/-- `add_command`. -/
def addCommand (h : Heap Block) (cmd : ℕ) (cmdLine : Option ℕ) : Option (Option ℕ × Heap Block) :=
  addNode h cmdLine cmd

/-- The loop that each parser has, and what it does with a token. -/
def strtokLoop {γ : Type} (delim : List Char) (body : γ → Mem → ℕ → Option (γ × Mem)) :
    ℕ → γ → Mem → ℕ → Option (γ × Mem)
  | 0, _, _, _ => none
  | fuel + 1, acc, m, s =>
    match Scan.token '\x00' (delim.contains ·) m.buf s with
    | none => none
    | some (none, _, buf) => some (acc, ⟨buf, m.heap⟩)
    | some (some t, ptr, buf) =>
      (body acc ⟨buf, m.heap⟩ t).bind fun r => strtokLoop delim body fuel r.1 r.2 ptr

/-- Parse a token, and add what it is to the list of `result`. -/
def addParsed (O : Owner Block) (parse : Mem → ℕ → Option (ℕ × Mem)) (result : ℕ) (_ : Unit)
    (m : Mem) (t : ℕ) : Option (Unit × Mem) :=
  (parse m t).bind fun x =>
    (O.add x.2.heap x.1 result).map fun h => ((), ⟨x.2.buf, h⟩)

/-- Allocate a node with an empty list, and add what `parse` returns for each token. -/
def parseList (O : Owner Block) (delim : List Char) (parse : Mem → ℕ → Option (ℕ × Mem))
    (m : Mem) (s : ℕ) : Option (ℕ × Mem) :=
  let result := m.heap.malloc A (O.block none none)
  (strtokLoop delim (addParsed O parse result.1) (m.buf.length + 1) () ⟨m.buf, result.2⟩ s).map
    fun r => (result.1, r.2)

/-- `parse_redir_token`. -/
def parseRedirToken : Mem → ℕ → Option (ℕ × Mem) :=
  parseList A redirToken [' ', '\t', '\n'] (createToken A)

/-- `parse_command`. -/
def parseCommand : Mem → ℕ → Option (ℕ × Mem) :=
  parseList A command ['>'] (parseRedirToken A)

/-- Parse a command, and add it to the command line. -/
def addParsedCommand (result : Option ℕ) (m : Mem) (cmd : ℕ) : Option (Option ℕ × Mem) :=
  (parseCommand A m cmd).bind fun x =>
    (addCommand x.2.heap x.1 result).map fun r => (r.1, ⟨x.2.buf, r.2⟩)

/-- `parse_command_line`. -/
def parseCommandLine (m : Mem) (cmdBuff : ℕ) : Option (Option ℕ × Mem) :=
  strtokLoop [';'] (addParsedCommand A) (m.buf.length + 1) none m cmdBuff

/-! ## Processing -/

/-- `process_command` from the count of the arguments on. -/
def processArgs (buf : List Char) (h : Heap Block) (rt redirCnt : ℕ) (filename : Option ℕ) :
    Option (Option Effect × Heap Block) :=
  ((h.load rt).bind redirToken.list).bind fun tokens =>
    (nodes h.blocks.length h tokens).bind fun tps =>
      if tps = [] then some (none, h)
      else
        (tps.mapM fun tp => (h.load tp).bind Block.str).map fun strs =>
          (Shell.processArgs (strs.map (Buffer.readToken buf)) redirCnt
            (filename.map (Buffer.readToken buf)), (h.malloc A (.args strs)).2)

/-- `process_command`. -/
def processCommand (buf : List Char) (h : Heap Block) (cmd : ℕ) :
    Option (Option Effect × Heap Block) :=
  ((h.load cmd).bind command.list).bind fun rtokens =>
    (nodes h.blocks.length h rtokens).bind fun
      | [] => some (none, h)
      | [rt] => processArgs A buf h rt 1 none
      | [rt, file] =>
        ((h.load file).bind redirToken.list).bind fun
          | none => some (some error, h)
          | some tp =>
            (h.load tp).bind fun
              | .token str none => processArgs A buf h rt 2 (some str)
              | .token _ (some _) => some (some error, h)
              | _ => none
      | _ :: _ :: _ :: _ => some (some error, h)

/-- `process_command_line`. -/
def processCommandLine (buf : List Char) :
    ℕ → Heap Block → Option ℕ → Option (List Effect × Heap Block)
  | _, h, none => some ([], h)
  | 0, _, some _ => none
  | fuel + 1, h, some cp =>
    (processCommand A buf h cp).bind fun r =>
      if r.1 = some .exit then some ([.exit], r.2)
      else
        ((r.2.load cp).bind Linked.next).bind fun next =>
          (processCommandLine buf fuel r.2 next).map fun r' => (r.1.toList ++ r'.1, r'.2)

/-! ## Destroying -/

/-- `destroy_redir_token`. -/
def destroyRedirToken : Heap Block → ℕ → Option (Heap Block) :=
  redirToken.destroy Heap.free

/-- `destroy_command`. -/
def destroyCommand : Heap Block → ℕ → Option (Heap Block) :=
  command.destroy destroyRedirToken

/-- `destroy_command_line`. -/
def destroyCommandLine (h : Heap Block) (cmdLine : Option ℕ) : Option (Heap Block) :=
  freeNodes destroyCommand h.blocks.length h cmdLine

/-! ## A line -/

/-- What `main` does with a line that is parsed. An `exit` ends the process. -/
def handleLine (m : Mem) : Option (List Effect × Heap Block) :=
  (parseCommandLine A m 0).bind fun r =>
    (processCommandLine A r.2.buf r.2.heap.blocks.length r.2.heap r.1).bind fun e =>
      if .exit ∈ e.1 then some e
      else (destroyCommandLine e.2 r.1).map fun h => (e.1, h)

/-- The loop of `main` for a line that is not too long. Behind its NUL the buffer has what
earlier lines left there. -/
def mainBody (h : Heap Block) (cmdBuff : CStr) (left : List Char) :
    Option (List Effect × Heap Block) :=
  if blankLine cmdBuff then some ([], h)
  else if cmdBuff.head? = some '>' then some ([.myPrint cmdBuff, error], h)
  else
    (handleLine A ⟨cmdBuff ++ '\x00' :: left, h⟩).map fun r => (.myPrint cmdBuff :: r.1, r.2)

/-- The lines of a run, until one of them executes `exit`. -/
def session : Heap Block → List (CStr × List Char) → Option (List Effect × Heap Block)
  | h, [] => some ([], h)
  | h, line :: lines =>
    (mainBody A h line.1 line.2).bind fun r =>
      if .exit ∈ r.1 then some r
      else (session r.2 lines).map fun r' => (r.1 ++ r'.1, r'.2)

/-! ## What the parsers build -/

variable {A} {α β γ τ : Type} {N : Node Block τ} {O : Owner Block} {strip : τ → β}
  {parse : Mem → ℕ → Option (ℕ × Mem)} {f : List Char → ℕ → Option (β × List Char)}
  {buf buf' : List Char} {h h' : Heap Block} {F : Multiset (ℕ × Block)} {delim : List Char}
  {s t fuel : ℕ}

/-- What `parse` allocates is a node for what `f` returns. -/
def Builds (parse : Mem → ℕ → Option (ℕ × Mem)) (f : List Char → ℕ → Option (β × List Char))
    (N : Node Block τ) (strip : τ → β) : Prop :=
  ∀ buf s x buf' h F, f buf s = some (x, buf') → Holds h F →
    ∃ (y : ℕ × τ) (h' : Heap Block), parse ⟨buf, h⟩ s = some (y.1, ⟨buf', h'⟩) ∧ strip y.2 = x ∧
      Holds h' ((y.1, N.block y.2 none) ::ₘ (N.own y.2 + F))

/-- The loop goes along with that of `Shell.Buffer`, if its body keeps a relation to the nodes
that are built. -/
theorem strtokLoop_of_scan (strip : τ → β) (body : γ → Mem → ℕ → Option (γ × Mem))
    (Inv : List (ℕ × τ) → γ → Heap Block → Prop)
    (hbody : ∀ xs acc h buf t x buf', f buf t = some (x, buf') → Inv xs acc h →
      ∃ (y : ℕ × τ) (acc' : γ) (h' : Heap Block),
        body acc ⟨buf, h⟩ t = some (acc', ⟨buf', h'⟩) ∧ strip y.2 = x ∧ Inv (xs ++ [y]) acc' h')
    (xs : List (ℕ × τ)) {acc : γ} {out : List β}
    (hscan : Scan.scan '\x00' (delim.contains ·) f Buffer.addLast fuel buf s
      (xs.map fun y => strip y.2) = some (out, buf')) (hinv : Inv xs acc h) :
    ∃ (ys : List (ℕ × τ)) (acc' : γ) (h' : Heap Block),
      strtokLoop delim body fuel acc ⟨buf, h⟩ s = some (acc', ⟨buf', h'⟩) ∧
        (ys.map fun y => strip y.2) = out ∧ Inv ys acc' h' := by
  induction fuel generalizing xs acc h buf s with
  | zero => cases hscan
  | succ fuel ih =>
    rw [Scan.scan] at hscan
    rw [strtokLoop]
    cases htok : Scan.token '\x00' (delim.contains ·) buf s with
    | none => rw [htok] at hscan; cases hscan
    | some r =>
      obtain ⟨_ | t, ptr, buf₁⟩ := r
      · rw [htok] at hscan
        cases hscan
        exact ⟨xs, acc, h, rfl, rfl, hinv⟩
      · rw [htok] at hscan
        dsimp only at hscan ⊢
        cases hf : f buf₁ t with
        | none => rw [hf] at hscan; cases hscan
        | some x =>
          obtain ⟨x, buf₂⟩ := x
          rw [hf] at hscan
          dsimp only at hscan
          obtain ⟨y, acc', h₁, hy, rfl, hinv'⟩ := hbody xs acc h buf₁ t x buf₂ hf hinv
          have hadd : Buffer.addLast (strip y.2) (xs.map fun y => strip y.2) =
              (xs ++ [y]).map fun y => strip y.2 := by
            rw [Buffer.addLast_eq, List.map_append, List.map_singleton]
          rw [hadd] at hscan
          obtain ⟨ys, acc'', h', hloop, hys, hinv''⟩ := ih (xs ++ [y]) hscan hinv'
          exact ⟨ys, acc'', h', by rw [hy, Option.bind_some, hloop], hys, hinv''⟩

theorem builds_createToken : Builds (createToken A) Buffer.createToken tokenNode id := by
  intro buf s x buf' h F hx hh
  cases hx
  refine ⟨(_, s), _, rfl, rfl, ?_⟩
  have hnew := hh.malloc A (.token s none)
  rwa [← Multiset.zero_add F] at hnew

/-- A list of what is built is built. -/
theorem builds_parseList (hp : Builds parse f N strip) :
    Builds (parseList A O delim parse) (Buffer.strtokLoop delim f Buffer.addLast) (O.node N)
      fun xs => xs.map fun y => strip y.2 := by
  intro buf s out buf' h F hscan hh
  have hnew := hh.malloc A (O.block none none)
  set a := (h.malloc A (O.block none none)).1
  have hinv : Holds (h.malloc A (O.block none none)).2
      ((a, (O.node N).block [] none) ::ₘ (N.chain [] + F)) := by
    rw [Node.chain, Node.segment, zero_add]
    exact hnew
  have hbody : ∀ (xs : List (ℕ × τ)) (_ : Unit) (h : Heap Block) (buf : List Char) (t : ℕ) (x : β)
      (buf' : List Char), f buf t = some (x, buf') →
      Holds h ((a, (O.node N).block xs none) ::ₘ (N.chain xs + F)) →
      ∃ (y : ℕ × τ) (acc' : Unit) (h' : Heap Block),
        addParsed O parse a () ⟨buf, h⟩ t = some (acc', ⟨buf', h'⟩) ∧ strip y.2 = x ∧
        Holds h' ((a, (O.node N).block (xs ++ [y]) none) ::ₘ (N.chain (xs ++ [y]) + F)) := by
    intro xs _ h buf t x buf' hf hinv
    obtain ⟨y, h₁, hy, hx, hh₁⟩ := hp buf t x buf' h _ hf hinv
    have hh₁' : Holds h₁ ((a, (O.node N).block xs none) ::ₘ
        (N.chain xs + ((y.1, N.block y.2 none) ::ₘ (N.own y.2 + F)))) := by
      refine hh₁.trans ?_
      simp only [← Multiset.singleton_add]
      abel
    obtain ⟨h₂, hadd, hh₂⟩ := hh₁'.add
    exact ⟨y, (), h₂, by rw [addParsed, hy, Option.bind_some, hadd, Option.map_some], hx, hh₂⟩
  obtain ⟨ys, acc', h', hloop, hys, hh'⟩ := strtokLoop_of_scan strip (addParsed O parse a)
    (fun ys _ h => Holds h ((a, (O.node N).block ys none) ::ₘ (N.chain ys + F))) hbody
    [] hscan hinv
  refine ⟨(a, ys), h', ?_, hys, hh'⟩
  rw [parseList]
  exact congrArg (Option.map fun r => (a, r.2)) hloop

/-- A `RedirToken` with its tokens. -/
abbrev redirNode : Node Block (List (ℕ × ℕ)) :=
  redirToken.node tokenNode

/-- A `Command` with its pieces. -/
abbrev commandNode : Node Block (List (ℕ × List (ℕ × ℕ))) :=
  command.node redirNode

/-- The lists of `Shell.Buffer` without the addresses of the nodes. -/
def stripCommand (rts : List (ℕ × List (ℕ × ℕ))) : Buffer.Command :=
  rts.map fun rt => rt.2.map Prod.snd

theorem builds_parseRedirToken : Builds (parseRedirToken A) Buffer.parseRedirToken redirNode
    fun toks => toks.map Prod.snd :=
  builds_parseList builds_createToken

theorem builds_parseCommand :
    Builds (parseCommand A) Buffer.parseCommand commandNode stripCommand :=
  builds_parseList builds_parseRedirToken

/-- The nodes of a command line are those of `Shell.Buffer`. -/
theorem parseCommandLine_builds {cmdLine : Buffer.CommandLine}
    (hparse : Buffer.parseCommandLine buf s = some (cmdLine, buf')) (hh : Holds h F) :
    ∃ cmds h', parseCommandLine A ⟨buf, h⟩ s = some (first cmds none, ⟨buf', h'⟩) ∧
      (cmds.map fun c => stripCommand c.2) = cmdLine ∧ Holds h' (commandNode.chain cmds + F) := by
  have hinv : (none : Option ℕ) = first ([] : List (ℕ × List (ℕ × List (ℕ × ℕ)))) none ∧
      Holds h (commandNode.chain [] + F) := by
    rw [Node.chain, Node.segment, zero_add]
    exact ⟨rfl, hh⟩
  have hbody : ∀ (xs : List (ℕ × List (ℕ × List (ℕ × ℕ)))) (acc : Option ℕ) (h : Heap Block)
      (buf : List Char) (t : ℕ) (x : Buffer.Command) (buf' : List Char),
      Buffer.parseCommand buf t = some (x, buf') →
      acc = first xs none ∧ Holds h (commandNode.chain xs + F) →
      ∃ (y : ℕ × List (ℕ × List (ℕ × ℕ))) (acc' : Option ℕ) (h' : Heap Block),
        addParsedCommand A acc ⟨buf, h⟩ t = some (acc', ⟨buf', h'⟩) ∧ stripCommand y.2 = x ∧
        acc' = first (xs ++ [y]) none ∧ Holds h' (commandNode.chain (xs ++ [y]) + F) := by
    rintro xs _ h buf t x buf' hf ⟨rfl, hinv⟩
    obtain ⟨y, h₁, hy, hx, hh₁⟩ := builds_parseCommand (A := A) buf t x buf' h _ hf hinv
    have hh₁' : Holds h₁ (commandNode.chain xs +
        ((y.1, commandNode.block y.2 none) ::ₘ (commandNode.own y.2 + F))) := by
      refine hh₁.trans ?_
      simp only [← Multiset.singleton_add]
      abel
    obtain ⟨h₂, hadd, hh₂⟩ := hh₁'.addNode
    refine ⟨y, _, h₂, ?_, hx, rfl, hh₂⟩
    rw [addParsedCommand, hy, Option.bind_some, addCommand, hadd, Option.map_some]
  obtain ⟨cmds, acc, h', hloop, hcmds, rfl, hh'⟩ := strtokLoop_of_scan stripCommand
    (addParsedCommand A)
    (fun cmds acc h => acc = first cmds none ∧ Holds h (commandNode.chain cmds + F)) hbody
    [] hparse hinv
  exact ⟨cmds, h', hloop, hcmds, hh'⟩

/-! ## What `process_command` leaves behind -/

/-- The number of arguments in the array that a command allocates, if it does. -/
def arrayOf {α : Type} : List (List α) → Option ℕ
  | [tokens] => if tokens.isEmpty then none else some tokens.length
  | [tokens, [_]] => if tokens.isEmpty then none else some tokens.length
  | _ => none

theorem arrayOf_of_three (a b c : List α) (cmd : List (List α)) :
    arrayOf (a :: b :: c :: cmd) = none := by
  rcases b with _ | ⟨x, _ | ⟨y, b⟩⟩ <;> rfl

theorem processCommand_of_three (a b c : RedirToken) (cmd : Command) :
    Shell.processCommand (a :: b :: c :: cmd) = some error := by
  rcases b with _ | ⟨x, _ | ⟨y, b⟩⟩ <;> rfl

theorem arrayOf_map (f : α → β) (cmd : List (List α)) :
    arrayOf (cmd.map (List.map f)) = arrayOf cmd := by
  match cmd with
  | [] => rfl
  | [tokens] => simp [arrayOf]
  | [tokens, []] => rfl
  | [tokens, [file]] => simp [arrayOf]
  | [tokens, _ :: _ :: _] => rfl
  | _ :: _ :: _ :: _ => exact (arrayOf_of_three ..).trans (arrayOf_of_three ..).symm

theorem toList_arrayOf_single (toks : List (ℕ × α)) :
    (arrayOf [toks.map Prod.snd]).toList = if toks.isEmpty then [] else [toks.length] := by
  cases toks <;> simp [arrayOf]

theorem toList_arrayOf_pair (toks : List (ℕ × α)) (file : α) :
    (arrayOf [toks.map Prod.snd, [file]]).toList =
      if toks.isEmpty then [] else [toks.length] := by
  cases toks <;> simp [arrayOf]

/-- The blocks of `leak` are arrays with these numbers of arguments. -/
def Arrays (leak : Multiset (ℕ × Block)) (cnts : List ℕ) : Prop :=
  leak.map (fun x => x.2.argCnt) = (cnts.map some : List (Option ℕ))

theorem arrays_zero : Arrays 0 [] :=
  rfl

theorem Arrays.add {leak leak' : Multiset (ℕ × Block)} {cnts cnts' : List ℕ}
    (hl : Arrays leak cnts) (hl' : Arrays leak' cnts') : Arrays (leak + leak') (cnts ++ cnts') := by
  rw [Arrays, Multiset.map_add, hl, hl', List.map_append]
  rfl

variable {toks : List (ℕ × ℕ)} {next : Option ℕ} {rt : ℕ}

theorem mapM_str (toks' : List (ℕ × ℕ)) (hh : Holds h (tokenNode.chain (toks' ++ toks) + F)) :
    ((toks.map Prod.fst).mapM fun tp => (h.load tp).bind Block.str) =
      some (toks.map Prod.snd) := by
  induction toks generalizing toks' with
  | nil => rfl
  | cons tok toks ih =>
    have hrest := ih (toks' ++ [tok]) (by simpa using hh)
    rw [tokenNode.chain_middle] at hh
    rw [List.map_cons, List.mapM_cons, hh.load, hrest]
    rfl

theorem processArgs_spec (A : Allocator) (buf : List Char) (redirCnt : ℕ) (filename : Option ℕ)
    (hh : Holds h ((rt, redirNode.block toks next) ::ₘ (tokenNode.chain toks + F))) :
    ∃ h' leak, processArgs A buf h rt redirCnt filename =
        some (Shell.processArgs (Buffer.readRedirToken buf (toks.map Prod.snd)) redirCnt
          (filename.map (Buffer.readToken buf)), h') ∧
      Holds h' (leak + ((rt, redirNode.block toks next) ::ₘ (tokenNode.chain toks + F))) ∧
      Arrays leak (if toks.isEmpty then [] else [toks.length]) := by
  have hlist := hh.list
  have hh₁ : Holds h (tokenNode.chain ([] ++ toks) + ((rt, redirNode.block toks next) ::ₘ F)) := by
    rw [List.nil_append, Multiset.add_cons]
    exact hh
  have hnodes := hh₁.nodes [] ((tokenNode.length_le toks none).trans hh₁.card_le)
  have hstrs := mapM_str [] hh₁
  rw [processArgs, hlist, Option.bind_some, hnodes, Option.bind_some]
  cases toks with
  | nil =>
    refine ⟨h, 0, rfl, ?_, arrays_zero⟩
    rw [zero_add]
    exact hh
  | cons tok toks =>
    have hnew := hh.malloc A (.args ((tok :: toks).map Prod.snd))
    refine ⟨_, {(_, _)}, ?_, hnew, ?_⟩
    · have hne : (tok :: toks).map Prod.fst ≠ [] := List.cons_ne_nil _ _
      rw [if_neg hne, hstrs, Option.map_some]
      rfl
    · rw [Arrays, Multiset.map_singleton, Block.argCnt, List.length_map]
      rfl

/-- `process_command` does what that of `Shell.Process` does, and leaves an array behind if it
gets to the arguments. -/
theorem processCommand_spec (A : Allocator) (buf : List Char)
    {c : ℕ × List (ℕ × List (ℕ × ℕ))}
    (hh : Holds h ((c.1, commandNode.block c.2 next) ::ₘ (redirNode.chain c.2 + F))) :
    ∃ h' leak, processCommand A buf h c.1 =
        some (Shell.processCommand (Buffer.readCommand buf (stripCommand c.2)), h') ∧
      Holds h' (leak + ((c.1, commandNode.block c.2 next) ::ₘ (redirNode.chain c.2 + F))) ∧
      Arrays leak (arrayOf (stripCommand c.2)).toList := by
  have hlist := hh.list
  have hh₁ : Holds h (redirNode.chain ([] ++ c.2) +
      ((c.1, commandNode.block c.2 next) ::ₘ F)) := by
    rw [List.nil_append, Multiset.add_cons]
    exact hh
  have hnodes := hh₁.nodes [] ((redirNode.length_le c.2 none).trans hh₁.card_le)
  have hnone : Holds h (0 + ((c.1, commandNode.block c.2 next) ::ₘ (redirNode.chain c.2 + F))) := by
    rw [zero_add]
    exact hh
  rw [processCommand, hlist, Option.bind_some, hnodes, Option.bind_some]
  obtain ⟨a, _ | ⟨⟨rt, toks⟩, _ | ⟨⟨file, names⟩, _ | ⟨third, rts⟩⟩⟩⟩ := c
  · exact ⟨h, 0, rfl, hnone, arrays_zero⟩
  · have hrt : Holds h ((rt, redirNode.block toks none) ::ₘ (tokenNode.chain toks +
        ((a, commandNode.block [(rt, toks)] next) ::ₘ F))) := by
      refine hh.trans ?_
      simp only [Node.chain, Node.segment, first, ← Multiset.singleton_add, redirNode, Owner.node]
      abel
    obtain ⟨h', leak, hargs, hh', hleak⟩ := processArgs_spec A buf 1 none hrt
    refine ⟨h', leak, hargs, hh'.trans ?_, ?_⟩
    · rw [← hrt, hh]
    · rwa [stripCommand, List.map_singleton, toList_arrayOf_single]
  · have hrt : Holds h ((rt, redirNode.block toks (some file)) ::ₘ (tokenNode.chain toks +
        ((file, redirNode.block names none) ::ₘ (tokenNode.chain names +
          ((a, commandNode.block [(rt, toks), (file, names)] next) ::ₘ F))))) := by
      refine hh.trans ?_
      simp only [Node.chain, Node.segment, first, ← Multiset.singleton_add, redirNode, Owner.node]
      abel
    have hfile : Holds h ((file, redirNode.block names none) ::ₘ (tokenNode.chain names +
        ((rt, redirNode.block toks (some file)) ::ₘ (tokenNode.chain toks +
          ((a, commandNode.block [(rt, toks), (file, names)] next) ::ₘ F))))) := by
      refine hrt.trans ?_
      simp only [← Multiset.singleton_add]
      abel
    simp only [List.map_cons, List.map_nil, hfile.list, Option.bind_some]
    rcases names with _ | ⟨⟨tp, str⟩, more⟩
    · exact ⟨h, 0, rfl, hnone, arrays_zero⟩
    · have htp : h.load tp = some (.token str (first more none)) := hfile.load_first
      simp only [first, htp, Option.bind_some]
      rcases more with _ | ⟨tok, more⟩
      · obtain ⟨h', leak, hargs, hh', hleak⟩ := processArgs_spec A buf 2 (some str) hrt
        refine ⟨h', leak, hargs, hh'.trans ?_, ?_⟩
        · rw [← hrt, hh]
        · rwa [stripCommand, List.map_cons, List.map_singleton, List.map_singleton,
            toList_arrayOf_pair]
      · exact ⟨h, 0, rfl, hnone, arrays_zero⟩
  · refine ⟨h, 0, ?_, hnone, ?_⟩
    · exact congrArg (fun e => some (e, h)) (processCommand_of_three ..).symm
    · rw [stripCommand, List.map_cons, List.map_cons, List.map_cons, arrayOf_of_three]
      exact arrays_zero

/-- A command that is not `exit` is followed by the others. -/
theorem processCommandLine_cons (cmd : Command) (cmds : CommandLine) :
    Shell.processCommandLine (cmd :: cmds) = if Shell.processCommand cmd = some .exit then [.exit]
      else (Shell.processCommand cmd).toList ++ Shell.processCommandLine cmds := by
  rw [Shell.processCommandLine]
  cases Shell.processCommand cmd with
  | none => rfl
  | some e => cases e <;> rfl

/-- The arrays of a line are those of its commands. -/
theorem processCommandLine_spec (A : Allocator) (buf : List Char)
    (done : List (ℕ × List (ℕ × List (ℕ × ℕ)))) {cmds : List (ℕ × List (ℕ × List (ℕ × ℕ)))}
    (hh : Holds h (commandNode.chain (done ++ cmds) + F)) (hfuel : cmds.length ≤ fuel) :
    ∃ h', processCommandLine A buf fuel h (first cmds none) =
        some (Shell.processCommandLine
          (Buffer.readCommandLine buf (cmds.map fun c => stripCommand c.2)), h') ∧
      (.exit ∉ Shell.processCommandLine
          (Buffer.readCommandLine buf (cmds.map fun c => stripCommand c.2)) →
        ∃ leak, Holds h' (commandNode.chain (done ++ cmds) + (leak + F)) ∧
          Arrays leak (cmds.filterMap fun c => arrayOf (stripCommand c.2))) := by
  induction cmds generalizing h F done fuel with
  | nil =>
    refine ⟨h, by cases fuel <;> rfl, fun _ => ⟨0, ?_, arrays_zero⟩⟩
    rwa [zero_add]
  | cons c cmds ih =>
    obtain ⟨fuel, rfl⟩ : ∃ f, fuel = f + 1 := ⟨fuel - 1, by simp at hfuel; omega⟩
    have hc : Holds h ((c.1, commandNode.block c.2 (first cmds none)) ::ₘ (redirNode.chain c.2 +
        (commandNode.segment done (some c.1) + commandNode.chain cmds + F))) := by
      rw [commandNode.chain_middle] at hh
      refine hh.trans ?_
      simp only [← Multiset.singleton_add, Owner.node]
      abel
    obtain ⟨h₁, leak, hcmd, hh₁, hleak⟩ := processCommand_spec A buf hc
    have hnext : (h₁.load c.1).bind Linked.next = some (first cmds none) := by
      rw [Multiset.add_cons] at hh₁
      rw [hh₁.load, Option.bind_some]
      rfl
    have hh₁' : Holds h₁ (commandNode.chain ((done ++ [c]) ++ cmds) + (leak + F)) := by
      rw [← List.append_cons, commandNode.chain_middle]
      refine hh₁.trans ?_
      simp only [← Multiset.singleton_add, Owner.node]
      abel
    obtain ⟨h', hrest, hh'⟩ := ih (done ++ [c]) hh₁' (by simpa using hfuel)
    have hline : Buffer.readCommandLine buf ((c :: cmds).map fun c => stripCommand c.2) =
        Buffer.readCommand buf (stripCommand c.2) ::
          Buffer.readCommandLine buf (cmds.map fun c => stripCommand c.2) := rfl
    rw [first, processCommandLine, hcmd, Option.bind_some, hnext, hline, processCommandLine_cons]
    by_cases hexit : Shell.processCommand (Buffer.readCommand buf (stripCommand c.2)) = some .exit
    · rw [if_pos hexit, if_pos hexit]
      exact ⟨h₁, rfl, fun hmem => absurd (List.mem_singleton_self _) hmem⟩
    · rw [if_neg hexit, if_neg hexit, Option.bind_some, hrest, Option.map_some]
      refine ⟨h', rfl, fun hmem => ?_⟩
      obtain ⟨leak', hleaks, harrays⟩ := hh' fun he => hmem (List.mem_append_right _ he)
      refine ⟨leak + leak', hleaks.trans ?_, ?_⟩
      · rw [← List.append_cons]
        abel
      · have hall := hleak.add harrays
        rw [List.filterMap_cons]
        cases hcnt : arrayOf (stripCommand c.2) <;> rw [hcnt] at hall <;> exact hall

/-! ## What is freed -/

theorem destroyRedirToken_spec (h : Heap Block) (a : ℕ) (toks : List (ℕ × ℕ)) (n : Option ℕ)
    (F : Multiset (ℕ × Block)) (hh : Holds h ((a, redirNode.block toks n) ::ₘ
      (redirNode.own toks + F))) : ∃ h', destroyRedirToken h a = some h' ∧ Holds h' F := by
  refine hh.destroy fun h a t n F hh => ?_
  have hown : tokenNode.own t + F = F := zero_add F
  rw [hown] at hh
  exact hh.free

theorem destroyCommand_spec (h : Heap Block) (a : ℕ) (rts : List (ℕ × List (ℕ × ℕ)))
    (n : Option ℕ) (F : Multiset (ℕ × Block)) (hh : Holds h ((a, commandNode.block rts n) ::ₘ
      (commandNode.own rts + F))) : ∃ h', destroyCommand h a = some h' ∧ Holds h' F :=
  hh.destroy destroyRedirToken_spec

/-- `destroy_command_line` frees what the parsers allocated, each block once. -/
theorem destroyCommandLine_spec {cmds : List (ℕ × List (ℕ × List (ℕ × ℕ)))}
    (hh : Holds h (commandNode.chain cmds + F)) :
    ∃ h', destroyCommandLine h (first cmds none) = some h' ∧ Holds h' F :=
  hh.freeNodes destroyCommand_spec ((commandNode.length_le cmds none).trans hh.card_le)

/-! ## Lines -/

/-- A line does what `Shell.Process` says, and all of its memory is freed but the arrays. -/
theorem handleLine_spec (A : Allocator) (h : Heap Block) {s : CStr} (h0 : '\x00' ∉ s)
    (left : List Char) :
    ∃ h', handleLine A ⟨s ++ '\x00' :: left, h⟩ =
        some (Shell.processCommandLine (Shell.parseCommandLine s), h') ∧
      (.exit ∉ Shell.processCommandLine (Shell.parseCommandLine s) →
        ∃ leak, Holds h' (leak + h.blocks) ∧
          Arrays leak ((Shell.parseCommandLine s).filterMap arrayOf)) := by
  obtain ⟨cmdLine, s', hparse, -, hread⟩ := Buffer.parseCommandLine_refines h0 left
  obtain ⟨cmds, h₁, hbuild, rfl, hh₁⟩ :=
    parseCommandLine_builds (A := A) hparse (holds_self h)
  obtain ⟨h₂, hrun, hleft⟩ := processCommandLine_spec A (s' ++ '\x00' :: left) [] hh₁
    ((commandNode.length_le cmds none).trans hh₁.card_le)
  rw [hread] at hrun hleft
  rw [handleLine, hbuild, Option.bind_some, hrun, Option.bind_some]
  by_cases hexit : .exit ∈ Shell.processCommandLine (Shell.parseCommandLine s)
  · rw [if_pos hexit]
    exact ⟨h₂, rfl, fun hne => absurd hexit hne⟩
  · rw [if_neg hexit]
    obtain ⟨leak, hh₂, hleak⟩ := hleft hexit
    rw [List.nil_append] at hh₂
    obtain ⟨h₃, hfree, hh₃⟩ := destroyCommandLine_spec hh₂
    dsimp only
    rw [hfree, Option.map_some]
    refine ⟨h₃, rfl, fun _ => ⟨leak, hh₃, ?_⟩⟩
    rw [← hread, Buffer.readCommandLine, List.map_map, List.filterMap_map]
    have hcnt : (arrayOf ∘ (Buffer.readCommand (s' ++ '\x00' :: left) ∘
        fun c : ℕ × List (ℕ × List (ℕ × ℕ)) => stripCommand c.2)) =
        fun c => arrayOf (stripCommand c.2) := by
      funext c
      exact arrayOf_map _ _
    rwa [hcnt]

/-- The arrays that a line leaves behind. -/
def lineArrays (cmdBuff : CStr) : List ℕ :=
  if blankLine cmdBuff ∨ cmdBuff.head? = some '>' then []
  else (Shell.parseCommandLine cmdBuff).filterMap arrayOf

theorem mainBody_spec (A : Allocator) (h : Heap Block) {s : CStr} (h0 : '\x00' ∉ s)
    (hfit : tooLongLine s = false) (left : List Char) :
    ∃ es h', mainBody A h s left = some (es, h') ∧ Shell.mainBody s = some es ∧
      (.exit ∉ es → ∃ leak, Holds h' (leak + h.blocks) ∧ Arrays leak (lineArrays s)) := by
  have hnone : ∃ leak, Holds h (leak + h.blocks) ∧ Arrays leak [] :=
    ⟨0, by rw [zero_add]; exact holds_self h, arrays_zero⟩
  have hlong : ¬tooLongLine s = true := by rw [hfit]; decide
  rw [mainBody, Shell.mainBody, if_neg hlong, lineArrays]
  by_cases hblank : blankLine s = true
  · rw [if_pos hblank, if_pos hblank, if_pos (Or.inl hblank)]
    exact ⟨[], h, rfl, rfl, fun _ => hnone⟩
  · rw [if_neg hblank, if_neg hblank]
    by_cases hhead : s.head? = some '>'
    · rw [if_pos hhead, if_pos hhead, if_pos (Or.inr hhead)]
      exact ⟨_, h, rfl, rfl, fun _ => hnone⟩
    · rw [if_neg hhead, if_neg hhead, if_neg (by tauto)]
      obtain ⟨h', hline, hleak⟩ := handleLine_spec A h h0 left
      rw [hline, Option.map_some]
      exact ⟨_, h', rfl, rfl, fun hne => hleak fun he => hne (List.mem_cons_of_mem _ he)⟩

/-- Whatever lines are read and wherever `malloc` puts its blocks, no access is to memory that
is not allocated and nothing is freed twice. The effects are those of the lines, and unless one
of these is an `exit`, the memory in use is what was in use before and the arrays of the
commands. -/
theorem session_leaks (A : Allocator) (h : Heap Block) (lines : List (CStr × List Char))
    (hlines : ∀ l ∈ lines, '\x00' ∉ l.1 ∧ tooLongLine l.1 = false) :
    ∃ es h', session A h lines = some (es, h') ∧
      es = untilExit (lines.flatMap fun l => (Shell.mainBody l.1).getD []) ∧
      (.exit ∉ es → ∃ leak, Holds h' (leak + h.blocks) ∧
        Arrays leak (lines.flatMap fun l => lineArrays l.1)) := by
  induction lines generalizing h with
  | nil =>
    refine ⟨[], h, rfl, rfl, fun _ => ⟨0, ?_, arrays_zero⟩⟩
    rw [zero_add]
    exact holds_self h
  | cons l lines ih =>
    obtain ⟨h0, hfit⟩ := hlines l List.mem_cons_self
    obtain ⟨es, h₁, hbody, hpure, hleak⟩ := mainBody_spec A h h0 hfit l.2
    obtain ⟨es', h', hrest, hes', hleak'⟩ := ih h₁ fun l hl => hlines l (List.mem_cons_of_mem _ hl)
    rw [session, hbody, Option.bind_some, List.flatMap_cons, List.flatMap_cons, hpure,
      Option.getD_some, untilExit_append, untilExit_mainBody hpure]
    by_cases hexit : .exit ∈ es
    · rw [if_pos hexit, if_pos hexit]
      exact ⟨es, h₁, rfl, rfl, fun hne => absurd hexit hne⟩
    · rw [if_neg hexit, if_neg hexit, hrest, Option.map_some, ← hes']
      refine ⟨es ++ es', h', rfl, rfl, fun hne => ?_⟩
      obtain ⟨leak, hh₁, harrays⟩ := hleak hexit
      obtain ⟨leak', hh', harrays'⟩ := hleak' fun he => hne (List.mem_append_right _ he)
      refine ⟨leak + leak', ?_, harrays.add harrays'⟩
      rw [hh₁] at hh'
      refine hh'.trans ?_
      abel

/-- Two commands with words, and one without. -/
theorem session_leaks_words : ∃ h' leak,
    session .above ⟨[], .nil⟩ [("pwd x y\n".toList, []), ("cd ; > ls\n".toList, ['a'])] =
      some ([.myPrint "pwd x y\n".toList, error, .myPrint "cd ; > ls\n".toList,
        .changeDir none], h') ∧ Holds h' leak ∧ Arrays leak [3, 1] := by
  obtain ⟨es, h', hrun, hes, hleak⟩ := session_leaks .above ⟨[], .nil⟩
    [("pwd x y\n".toList, []), ("cd ; > ls\n".toList, ['a'])] (by decide)
  obtain rfl : es = [.myPrint "pwd x y\n".toList, error, .myPrint "cd ; > ls\n".toList,
      .changeDir none] := hes.trans (by decide)
  obtain ⟨leak, hh', harrays⟩ := hleak (by decide)
  exact ⟨h', leak, hrun, hh'.trans (Multiset.add_zero leak), harrays⟩

end Memory

end Shell

end ClassProjects
