import ClassProjects.Ims.Storage
import ClassProjects.Ims.TextClient

/-!
# What is typed into the text client

`getTextInput` of `txtimc.c` takes a line apart into a command and its arguments, and
`processOp` takes the arguments apart into the name and the text of an operation. `raw` sends
its argument as it is, with newlines for tabs, so that one line can carry many messages.

An operation is shown before it is sent, unless the client is quiet, and one whose text does
not fit in the buffer of `stringShow` goes wrong. Any other operation can be typed, under
either command for it, and the server handles just this operation. No line makes the client
send an operation with an empty name, with a name of several words or with an empty text
(`typed_handled`). The messages of one `raw` are handled in order if none but the last fails,
and otherwise the server goes wrong (`raw_handled`).
-/

namespace ClassProjects

namespace Ims

/-! ## The source -/

/-- The commands of `getTextInput`, with their arguments. -/
inductive Typed
  | op (op : ImpOp) (args : Option CStr)
  | raw (args : Option CStr)
  | sleep (args : Option CStr)
  | quit
  | help
  | unknown
deriving DecidableEq

/-- The comparisons of `cmd` with the names of the commands. -/
def dispatch (cmd : CStr) (args : Option CStr) : Typed :=
  if cmd = "register".toList ∨ cmd = "reg".toList then .op .register args
  else if cmd = "login".toList then .op .login args
  else if cmd = "logout".toList then .op .logout args
  else if cmd = "friend_request".toList ∨ cmd = "req".toList then .op .friendRequest args
  else if cmd = "friend_remove".toList ∨ cmd = "rm".toList then .op .friendRemove args
  else if cmd = "friend_list".toList ∨ cmd = "list".toList then .op .friendList args
  else if cmd = "im".toList then .op .im args
  else if cmd = "raw".toList then .raw args
  else if cmd = "sleep".toList then .sleep args
  else if cmd = "quit".toList ∨ cmd = "q".toList then .quit
  else if cmd = "help".toList ∨ cmd = "?".toList ∨ cmd = "h".toList then .help
  else .unknown

/-- One pass of `getTextInput` : the line, cut to the size of the stack buffer, without the
white space in front and split at its first blank. `none` for a blank line. -/
def readCommand (buff : CStr) : Option Typed :=
  let cmd := (if buff.length < buffSize then buff else buff.take buffSize).dropWhile isspace
  if cmd = [] then none
  else
    let word := cmd.takeWhile (· ≠ ' ')
    some (dispatch word (if ' ' ∈ cmd then some (cmd.drop (word.length + 1)) else none))

/-- `impMsgUserArg` for an operation. -/
def impMsgUserArg : ImpOp → Bool
  | .register | .login | .friendRequest | .friendRemove | .im => true
  | .logout | .friendList | .connect => false

/-- The arguments of `impStrNew` for an operation, with the name and the text if it has them. -/
def impMsgOpOf (op : ImpOp) (name IM : CStr) : ImpMsgOp :=
  match op with
  | .register => .register name
  | .login => .login name
  | .logout => .logout
  | .friendRequest => .friendRequest name
  | .friendRemove => .friendRemove name
  | .friendList => .friendList
  | .im => .im name IM
  | .connect => .connect

/-- `processOp` up to `impStrNew`. `none` if an argument is missing. -/
def processOp (op : ImpOp) (args : Option CStr) : Option ImpMsgOp :=
  if impMsgUserArg op = false then some (impMsgOpOf op [] [])
  else
    match args with
    | none => none
    | some args =>
      let (name, args) := scanWord args
      if name = [] then none
      else if op = .im then
        -- `sscanf(args+1, "%[^\n]", IM)`
        let IM := args.tail.takeWhile (· ≠ '\n')
        if IM = [] then none else some (impMsgOpOf op name IM)
      else some (impMsgOpOf op name [])

/-- The operation that a line makes the client send. -/
def typedOp (buff : CStr) : Option ImpMsgOp :=
  match readCommand buff with
  | some (.op op args) => processOp op args
  | _ => none

/-- `rawnl` : the argument of `raw` with a newline behind it, and newlines for its tabs. -/
def rawnl (args : CStr) : CStr :=
  args.map (fun c => if c = '\t' then '\n' else c) ++ ['\n']

/-! ## Lines -/

/-- The operation of a message. -/
def ImpMsgOp.op : ImpMsgOp → ImpOp
  | .register _ => .register
  | .login _ => .login
  | .logout => .logout
  | .friendRequest _ => .friendRequest
  | .friendRemove _ => .friendRemove
  | .friendList => .friendList
  | .im _ _ => .im
  | .connect => .connect

/-- The commands that stand for an operation. -/
def commands : ImpOp → List CStr
  | .register => ["register".toList, "reg".toList]
  | .login => ["login".toList]
  | .logout => ["logout".toList]
  | .friendRequest => ["friend_request".toList, "req".toList]
  | .friendRemove => ["friend_remove".toList, "rm".toList]
  | .friendList => ["friend_list".toList, "list".toList]
  | .im => ["im".toList]
  | .connect => []

/-- What is typed behind the command. -/
def ImpMsgOp.args : ImpMsgOp → Option CStr
  | .register userName | .login userName => some userName
  | .friendRequest userName | .friendRemove userName => some userName
  | .im userName IM => some (userName ++ ' ' :: IM)
  | .logout | .friendList | .connect => none

/-- What can be typed : a name of one word, and a text that is not empty and has no newline. -/
def ImpMsgOp.Typable : ImpMsgOp → Prop
  | .register userName | .login userName => Word userName
  | .friendRequest userName | .friendRemove userName => Word userName
  | .im userName IM => Word userName ∧ IM ≠ [] ∧ '\n' ∉ IM
  | .logout | .friendList => True
  | .connect => False

variable {buff cmd ws : CStr} {mop : ImpMsgOp} {op : ImpOp}

theorem dispatch_commands (h : cmd ∈ commands op) (args : Option CStr) :
    dispatch cmd args = .op op args := by
  have hall : ∀ op, ∀ cmd ∈ commands op, ∀ args, dispatch cmd args = .op op args := by
    intro op
    cases op <;> simp only [commands, List.forall_mem_cons, List.not_mem_nil, false_imp_iff,
      implies_true, and_true] <;> (try constructor) <;> intro args <;> rfl
  exact hall op cmd h args

/-- A command with its arguments behind white space is taken apart again. -/
theorem readCommand_line (hws : ∀ c ∈ ws, isspace c = true) (hcmd : Word cmd)
    (args : Option CStr)
    (hlen : (ws ++ cmd ++ (args.map (' ' :: ·)).getD []).length < buffSize) :
    readCommand (ws ++ cmd ++ (args.map (' ' :: ·)).getD []) = some (dispatch cmd args) := by
  have hblank : ∀ c ∈ cmd, (decide (c ≠ ' ')) = true := by
    intro c hc
    have := hcmd.isspace c hc
    simp only [decide_eq_true_eq]
    rintro rfl
    revert this
    decide
  have hdrop : ∀ rest, (ws ++ cmd ++ rest).dropWhile isspace = cmd ++ rest := by
    intro rest
    obtain ⟨c, w, rfl⟩ := List.exists_cons_of_ne_nil hcmd.ne_nil
    rw [List.append_assoc, List.dropWhile_append_of_pos hws, List.cons_append,
      List.dropWhile_cons_of_neg (by simp [hcmd.isspace c])]
  have hno : ' ' ∉ cmd := fun hmem => by simpa using hblank ' ' hmem
  rw [readCommand, if_pos hlen]
  simp only [hdrop]
  rw [if_neg (by simp [hcmd.ne_nil])]
  cases args with
  | none =>
    have htake : cmd.takeWhile (fun c => decide (c ≠ ' ')) = cmd :=
      List.takeWhile_eq_self_iff.2 hblank
    simp only [Option.map_none, Option.getD_none, List.append_nil, htake, if_neg hno]
  | some a =>
    have htake : (cmd ++ ' ' :: a).takeWhile (fun c => decide (c ≠ ' ')) = cmd := by
      rw [List.takeWhile_append_of_pos hblank]
      simp
    have hdropa : (cmd ++ ' ' :: a).drop (cmd.length + 1) = a := by
      simp [List.drop_append]
    simp only [Option.map_some, Option.getD_some, htake, hdropa]
    rw [if_pos (by simp)]

/-- What is typed behind a command is the operation's name and text. -/
theorem processOp_args (h : mop.Typable) : processOp mop.op mop.args = some mop := by
  have hone : ∀ {n : CStr}, Word n → scanWord n = (n, []) := by
    intro n hn
    simpa using scanWord_append hn (Or.inl rfl : ([] : CStr) = [] ∨ _)
  cases mop with
  | register n | login n | friendRequest n | friendRemove n =>
    simp [processOp, ImpMsgOp.op, ImpMsgOp.args, impMsgUserArg, hone h, Word.ne_nil h, impMsgOpOf]
  | im n t =>
    obtain ⟨hn, ht, hnl⟩ := h
    have htake : t.takeWhile (fun c => decide (c ≠ '\n')) = t := by
      rw [List.takeWhile_eq_self_iff]
      intro c hc
      simpa using fun he : c = '\n' => hnl (he ▸ hc)
    have hscan := scanWord_append hn (Or.inr ⟨t, rfl⟩ : ' ' :: t = [] ∨ _)
    simp only [processOp, ImpMsgOp.op, ImpMsgOp.args, impMsgUserArg, hscan, List.tail_cons, htake,
      impMsgOpOf, if_true]
    rw [if_neg (by decide), if_neg hn.ne_nil, if_neg ht]
  | logout | friendList => rfl
  | connect => exact h.elim

theorem scanWord_word {s name rest : CStr} (h : scanWord s = (name, rest)) (hne : name ≠ []) :
    Word name := by
  obtain ⟨rfl, -⟩ := Prod.mk.inj h
  exact ⟨hne, fun c hc => by simpa using List.mem_takeWhile_imp hc⟩

/-- The operations of `processOp` can all be typed. -/
theorem typable_of_processOp {args : Option CStr} (hop : op ≠ .connect)
    (h : processOp op args = some mop) : mop.Typable := by
  unfold processOp at h
  by_cases huser : impMsgUserArg op = false
  · rw [if_pos huser] at h
    obtain rfl := Option.some.inj h
    cases op with
    | logout | friendList => trivial
    | connect => exact absurd rfl hop
    | register | login | friendRequest | friendRemove | im => cases huser
  · rw [if_neg huser] at h
    cases args with
    | none => cases h
    | some a =>
      cases hscan : scanWord a with
      | mk name rest =>
        simp only [hscan] at h
        split_ifs at h with hname him ht
        · obtain rfl := Option.some.inj h
          subst him
          refine ⟨scanWord_word hscan hname, ht, fun hmem => ?_⟩
          simpa using List.mem_takeWhile_imp hmem
        · obtain rfl := Option.some.inj h
          have hword := scanWord_word hscan hname
          cases op with
          | register | login | friendRequest | friendRemove => exact hword
          | logout | friendList => trivial
          | connect => exact absurd rfl hop
          | im => exact absurd rfl him

theorem dispatch_ne_connect {cmd : CStr} {args args' : Option CStr} :
    dispatch cmd args ≠ .op .connect args' := by
  unfold dispatch
  repeat' refine iteInduction (motive := (· ≠ Typed.op .connect args')) (fun _ => ?_) fun _ => ?_
  all_goals simp

/-- A line sends only operations that can be typed. -/
theorem typable_of_typedOp (h : typedOp buff = some mop) : mop.Typable := by
  unfold typedOp at h
  split at h
  · rename_i op args hcmd
    refine typable_of_processOp ?_ h
    rintro rfl
    rw [readCommand] at hcmd
    split_ifs at hcmd
    all_goals exact dispatch_ne_connect (Option.some.inj hcmd)
  · cases h

/-- The line of an operation : white space, a command for it, and its arguments. -/
def typedLine (ws cmd : CStr) (mop : ImpMsgOp) : CStr :=
  ws ++ cmd ++ (mop.args.map (' ' :: ·)).getD []

/-- Every operation that can be typed is sent, with either command for it. -/
theorem readCommand_typedLine (hws : ∀ c ∈ ws, isspace c = true) (hcmd : cmd ∈ commands mop.op)
    (hlen : (typedLine ws cmd mop).length < buffSize) :
    readCommand (typedLine ws cmd mop) = some (.op mop.op mop.args) := by
  have hword : ∀ op, ∀ cmd ∈ commands op, Word cmd := by
    intro op
    cases op <;> decide
  rw [typedLine, readCommand_line hws (hword _ _ hcmd) _ hlen, dispatch_commands hcmd]

/-! ## From the keyboard to the server -/

/-- The bytes that a line makes the client send, none of them if it makes it send nothing.
`impStrNew` is the parameter `format`, without the newline behind what it makes. The client
goes wrong if it cannot show the operation, or is to sleep without a number : `args` is NULL
there, and `sscanf` reads it. -/
def sentBytes (parse : CStr → Option ImpMsg) (disp : Display) (format : ImpMsg → CStr)
    (buff : CStr) : Option CStr :=
  match readCommand buff with
  | some (.op op args) =>
    match processOp op args with
    | some mop =>
      let str := format (.op mop) ++ ['\n']
      if disp.fits parse str then some str else none
    | none => some []
  | some (.raw (some args)) => some (rawnl args)
  | some (.sleep none) => none
  | _ => some []

variable {lim : ImpLimits} {parse : CStr → Option ImpMsg} {disp : Display}
  {format : ImpMsg → CStr} {db db' : Db} {c : ℕ} {sent : List Sent} {ms : List CStr}

/-- Handling strings one after the other is the server's step on the messages in them. -/
theorem run_handleStr : (∃ os, Machine.run (handleStr lim parse c) db ms = some (db', os) ∧
    sent = os.flatMap Outcome.sent) ↔
      Machine.run (step lim) db (ms.map fun m => .msg c (parse m)) = some (db', sent) := by
  induction ms generalizing db sent with
  | nil =>
    constructor
    · rintro ⟨os, hrun, rfl⟩
      obtain ⟨rfl, rfl⟩ := Prod.mk.inj (Option.some.inj hrun)
      rfl
    · intro hrun
      obtain ⟨rfl, rfl⟩ := Prod.mk.inj (Option.some.inj hrun)
      exact ⟨[], rfl, rfl⟩
  | cons m ms ih =>
    constructor
    · rintro ⟨os, hrun, rfl⟩
      obtain ⟨db₁, _, os', hs, hrest, rfl⟩ := Machine.run_cons_eq_some.1 hrun
      obtain ⟨o, ho, heq⟩ := Option.map_eq_some_iff.1 hs
      obtain ⟨rfl, rfl⟩ := Prod.mk.inj heq
      refine Machine.run_cons_eq_some.2 ⟨o.db, o.sent, os'.flatMap Outcome.sent, ?_, ?_, rfl⟩
      · exact Option.map_eq_some_iff.2 ⟨o, ho, rfl⟩
      · exact ih.1 ⟨os', hrest, rfl⟩
    · intro hrun
      obtain ⟨db₁, out, out', hs, hrest, rfl⟩ := Machine.run_cons_eq_some.1 hrun
      obtain ⟨o, ho, heq⟩ := Option.map_eq_some_iff.1 hs
      obtain ⟨rfl, rfl⟩ := Prod.mk.inj heq
      obtain ⟨os', hrest', rfl⟩ := ih.2 hrest
      refine ⟨o :: os', Machine.run_cons_eq_some.2 ⟨o.db, [o], os', ?_, hrest', rfl⟩, rfl⟩
      exact Option.map_eq_some_iff.2 ⟨o, ho, rfl⟩

/-- A line that sends an operation sends one with a name of one word and a text that is
neither empty nor has a newline. And every such operation can be typed, under either command
for it and behind any white space, if the line fits in the buffer, and if the client is quiet
or what it shows of the operation fits too : then the server, if one `recv` delivers what the
client sends and leaves room for a NUL, handles just this operation. -/
theorem typed_handled (hf : IsSegment (format (.op mop)) ∧
      parse (format (.op mop)) = some (.op mop)) :
    (∀ buff, typedOp buff = some mop → mop.Typable) ∧
      (mop.Typable → ∀ ws cmd, (∀ c ∈ ws, isspace c = true) → cmd ∈ commands mop.op →
        (typedLine ws cmd mop).length < buffSize →
        disp.fits parse (format (.op mop) ++ ['\n']) = true →
        (format (.op mop) ++ ['\n']).length < buffSize →
          ∃ bytes, sentBytes parse disp format (typedLine ws cmd mop) = some bytes ∧
            bytes ≠ [] ∧ bytes.length < buffSize ∧
            (Receives lim parse c db bytes db' sent ↔
              step lim db (.msg c (some (.op mop))) = some (db', sent))) := by
  refine ⟨fun buff => typable_of_typedOp, fun h ws cmd hws hcmd hlen hfit hsent => ?_⟩
  have hne : format (.op mop) ++ ['\n'] ≠ [] := by simp
  refine ⟨format (.op mop) ++ ['\n'], ?_, hne, hsent, ?_⟩
  · rw [sentBytes, readCommand_typedLine hws hcmd hlen]
    simp only [processOp_args h]
    rw [if_pos hfit]
  · rw [receives_of_ne_nil hne, handles_line hf.1]
    simp only [handleStr, hf.2, step]
    cases handleMsg lim db c (some (.op mop)) with
    | none => simp
    | some o =>
      simp only [Option.map_some, Option.some.injEq, Prod.mk.injEq]
      constructor
      · rintro ⟨o', ⟨rfl, ho⟩, rfl⟩
        obtain rfl : o = o' := by simpa using ho
        exact ⟨rfl, rfl⟩
      · rintro ⟨rfl, rfl⟩
        exact ⟨o, ⟨rfl, rfl⟩, rfl⟩

/-- A message to bob, with a blank at its beginning. -/
theorem typed_handled_im :
    let format : ImpMsg → CStr := fun _ => "1 7 bob  hi".toList
    let parse : CStr → Option ImpMsg := fun _ => some (.op (.im "bob".toList " hi".toList))
    let disp : Display := ⟨fun _ => "OP IM bob  hi\n".toList, fun _ => [], false⟩
    ∃ bytes, sentBytes parse disp format "im bob  hi".toList = some bytes ∧
      Receives impLimits parse 4 Db.offlineDuo bytes Db.offlineDuo
        [⟨4, .error .clientNotBound none⟩] := by
  intro format parse disp
  obtain ⟨bytes, hs, -, -, h⟩ := (@typed_handled (.im "bob".toList " hi".toList) impLimits parse
    disp format Db.offlineDuo Db.offlineDuo 4 [⟨4, .error .clientNotBound none⟩] (by decide)).2
    ⟨by decide, by decide, by decide⟩ [] "im".toList (by simp) (by decide) (by decide) (by decide)
    (by decide)
  exact ⟨bytes, hs, h.2 (by decide)⟩

/-- The tabs between messages become the newlines behind them. -/
theorem rawnl_intercalate (hms : ∀ m ∈ ms, '\t' ∉ m) (hne : ms ≠ []) :
    rawnl (['\t'].intercalate ms) = Lines.unlines ms := by
  induction ms with
  | nil => exact absurd rfl hne
  | cons m ms ih =>
    obtain ⟨hm, hms⟩ := List.forall_mem_cons.1 hms
    have hid : m.map (fun c => if c = '\t' then '\n' else c) = m := by
      refine (List.map_congr_left fun c hc => ?_).trans m.map_id
      rw [if_neg fun he : c = '\t' => hm (he ▸ hc)]
      rfl
    cases ms with
    | nil => simp [rawnl, hid, List.intercalate]
    | cons m' ms =>
      have hrest := ih hms (List.cons_ne_nil m' ms)
      rw [rawnl] at hrest ⊢
      rw [List.intercalate_cons_cons, Lines.unlines_cons, ← hrest]
      simp [hid]

/-- One `raw` line with any number of messages, with tabs between them, is one buffer of the
server. If no message but the last fails, the server makes just the steps on these messages
in order. Otherwise it goes wrong : the message behind the first that fails is parsed with
the freed accumulator. -/
theorem raw_handled (hms : ∀ m ∈ ms, IsSegment m ∧ '\t' ∉ m) (hne : ms ≠ [])
    (hlen : ("raw ".toList ++ ['\t'].intercalate ms).length < buffSize) :
    ∃ bytes, sentBytes parse disp format ("raw ".toList ++ ['\t'].intercalate ms) = some bytes ∧
      bytes.length < buffSize ∧ ∀ db' sent, Receives lim parse c db bytes db' sent ↔
        AllSucceed lim parse c db ms.dropLast ∧
          Machine.run (step lim) db (ms.map fun m => .msg c (parse m)) = some (db', sent) := by
  have hread : readCommand ("raw ".toList ++ ['\t'].intercalate ms) =
      some (.raw (some (['\t'].intercalate ms))) :=
    @readCommand_line "raw".toList [] (by simp) (by decide) (some (['\t'].intercalate ms)) hlen
  have hraw := rawnl_intercalate (fun m hm => (hms m hm).2) hne
  refine ⟨Lines.unlines ms, ?_, ?_, fun db' sent => ?_⟩
  · rw [sentBytes, hread]
    simp only [hraw]
  · rw [← hraw, rawnl, List.length_append, List.length_map, List.length_singleton]
    rw [List.length_append] at hlen
    have : "raw ".toList.length = 4 := rfl
    omega
  · have hlines : Lines.unlines ms ≠ [] := by
      obtain ⟨m, ms, rfl⟩ := List.exists_cons_of_ne_nil hne
      simp
    rw [receives_of_ne_nil hlines, handles_unlines (fun m hm => (hms m hm).1) hne, run_handleStr]

/-- A registration and a login on one line. -/
theorem raw_handled_two :
    let parse : CStr → Option ImpMsg := fun s =>
      if s = "1 1 alice".toList then some (.op (.register "alice".toList))
      else some (.op (.login "alice".toList))
    ∃ bytes, sentBytes parse ⟨fun _ => [], fun _ => [], true⟩ (fun _ => [])
        "raw 1 1 alice\t1 2 alice".toList = some bytes ∧
      Receives impLimits parse 4 Db.empty bytes ⟨[⟨"alice".toList, .yes, 4, []⟩], 0⟩
        [⟨4, .ack .register (some "alice".toList)⟩, ⟨4, .ack .login (some "alice".toList)⟩] := by
  intro parse
  obtain ⟨bytes, hs, -, h⟩ := @raw_handled impLimits parse ⟨fun _ => [], fun _ => [], true⟩
    (fun _ => []) Db.empty 4 ["1 1 alice".toList, "1 2 alice".toList] (by decide) (by decide)
    (by decide)
  exact ⟨bytes, hs, (h _ _).2 ⟨by decide, by decide⟩⟩

end Ims

end ClassProjects
