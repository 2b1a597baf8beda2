import ClassProjects.Ims.Batch
import ClassProjects.Ims.Replica

/-!
# The text client

`processServerStr` of `txtimc.c` cuts what `recv` delivered at its newlines, as the server's
`processUserStr` does, but returns 1 at the first segment that does not parse. `Screen` is
what its user sees : the name in the prompt and the notices printed.

Unless the client is quiet, each string is shown through a buffer of 2048 bytes, and what does
not fit there goes wrong (`stringShow`).

The loop reads the lines of the buffer in order (`readLines`). A piece behind the last newline
keeps it from returning unless something before or in the piece fails to parse
(`processServerStr_iff`).

The prompt is the client's idea of who it is logged in as. Whatever the server does, once the
client has read what it was sent the prompt is right (`prompt_of_run`).
-/

namespace ClassProjects

namespace Ims

open DoWhile

/-! ## Showing -/

/-- `BUFF_SIZE`. -/
def buffSize : ℕ :=
  2048

/-- What the library prints of a message (`impMsgToDisplay`) and of a string that is none
(`impEmSprint`), and whether the client was started with `-q`. -/
structure Display where
  message : ImpMsg → CStr
  errors : CStr → CStr
  quiet : Bool

/-- The text up to the first newline. -/
def firstLine (s : CStr) : CStr :=
  s.takeWhile (· ≠ '\n')

/-- The text that `stringShow` prints into the buffer of its caller. `none` if it does not fit
there with its NUL. -/
def stringShow (parse : CStr → Option ImpMsg) (disp : Display) (protstr : CStr) : Option CStr :=
  let shown := match parse protstr with
    | some msg => '"' :: firstLine protstr ++ "\" (".toList ++ firstLine (disp.message msg) ++ [')']
    | none => '"' :: firstLine protstr ++ "\" (bad: ".toList ++
        (disp.errors protstr).map (fun c => if c = '\n' then ';' else c) ++ [')']
  if shown.length < buffSize then some shown else none

/-- `if (!quiet)` : the string can be shown, or need not be. -/
def Display.fits (disp : Display) (parse : CStr → Option ImpMsg) (protstr : CStr) : Bool :=
  disp.quiet || (stringShow parse disp protstr).isSome

/-! ## Reading -/

/-- `NOT_LOGGED_IN`. -/
def notLoggedIn : CStr :=
  "not logged in".toList

/-- What is printed about a message. -/
inductive Notice
  | imFrom (userName IM : CStr)
  | friend (userName : CStr) (active : ImpActive)
  | stranger (userName : CStr) (status : ImpFriend)
  | error (et : ImpError) (userName : Option CStr)
deriving DecidableEq

/-- `myself`, and what has been printed. -/
structure Screen where
  myself : CStr
  notices : List Notice
deriving DecidableEq

namespace Screen

/-- `strcpy(myself, userName)`. `none` if there is no name or it does not fit. -/
def setMyself (lim : ImpLimits) (s : Screen) (userName : Option CStr) : Option Screen :=
  match userName with
  | none => none
  | some n => if n.length ≤ lim.nameMaxlen then some { s with myself := n } else none

/-- Print a notice. -/
def print (s : Screen) (notice : Notice) : Screen :=
  { s with notices := s.notices ++ [notice] }

/-- What the client does about a message that parsed. -/
def handle (lim : ImpLimits) (s : Screen) : ImpMsg → Option Screen
  | .ack .login userName => s.setMyself lim userName
  | .ack .logout _ => s.setMyself lim (some notLoggedIn)
  | .op (.im userName IM) => some (s.print (.imFrom userName IM))
  | .status userName st active =>
    if st = .yes then some (s.print (.friend userName active))
    else some (s.print (.stranger userName st))
  | .error et userName => some (s.print (.error et userName))
  | _ => some s

end Screen

/-- The variables of the loop. `failed` is set where the function returns 1. -/
structure ClientLoop where
  allstr : CStr
  start : ℕ
  screen : Screen
  failed : Bool
deriving DecidableEq

/-- One pass of the loop. -/
def clientPass (lim : ImpLimits) (parse : CStr → Option ImpMsg) (disp : Display) (st : ClientLoop) :
    Option ClientLoop :=
  let (allstr, start) := cutSegment st.allstr st.start
  let pstr := cstr (allstr.drop st.start)
  if disp.fits parse pstr then
    match parse pstr with
    | none => some ⟨allstr, start, st.screen, true⟩
    | some pm => (st.screen.handle lim pm).map fun screen => ⟨allstr, start, screen, false⟩
  else none

/-- `start < alllen`, and no `return 1` so far. -/
def clientTest (alllen : ℕ) (st : ClientLoop) : Bool :=
  !st.failed && st.start < alllen

/-- `processServerStr` returns, with 1 if `ret` holds. -/
def processServerStr (lim : ImpLimits) (parse : CStr → Option ImpMsg) (disp : Display)
    (s : Screen) (allstr : CStr) (s' : Screen) (ret : Bool) : Prop :=
  ∃ st, Returns (clientPass lim parse disp) (clientTest allstr.length) ⟨allstr, 0, s, false⟩ st ∧
    st.screen = s' ∧ st.failed = ret

/-- Show and read the lines in order, up to the first that does not parse. -/
def readLines (lim : ImpLimits) (parse : CStr → Option ImpMsg) (disp : Display) :
    Screen → List CStr → Option (Screen × Bool)
  | s, [] => some (s, false)
  | s, m :: ms =>
    if disp.fits parse m then
      match parse m with
      | none => some (s, true)
      | some pm => (s.handle lim pm).bind fun s => readLines lim parse disp s ms
    else none

variable {lim : ImpLimits} {parse : CStr → Option ImpMsg} {disp : Display} {ms : List CStr}
  {m tail allstr : CStr} {s s' : Screen} {ret : Bool}

/-- A pass over a buffer that holds lines and a tail takes the first of them. -/
theorem clientPass_at (lim : ImpLimits) (parse : CStr → Option ImpMsg) (disp : Display)
    {st : ClientLoop}
    (h : At st.allstr st.start ms tail) (hms : ∀ m ∈ ms, IsSegment m) (htail : IsSegment tail) :
    ∃ allstr start,
      allstr.length = st.allstr.length ∧ At allstr start ms.tail tail ∧
      clientPass lim parse disp st = if disp.fits parse (ms.headD tail) then
        match parse (ms.headD tail) with
        | none => some ⟨allstr, start, st.screen, true⟩
        | some pm =>
          (st.screen.handle lim pm).map fun screen => ⟨allstr, start, screen, false⟩
        else none := by
  obtain ⟨hm, hat⟩ := h.cut hms htail
  exact ⟨_, _, length_cutSegment _ _, hat, by rw [clientPass, ← hm]⟩

/-- A piece that parses is read for ever. -/
theorem clientPass_stuck {pm : ImpMsg} {st st' : ClientLoop} (htail : IsSegment tail)
    (hne : tail ≠ []) (hpm : parse tail = some pm) (h : At st.allstr st.start [] tail) :
    ¬Returns (clientPass lim parse disp) (clientTest st.allstr.length) st st' := by
  have hbody : ∀ st₁ st₂ : ClientLoop,
      At st₁.allstr st₁.start [] tail ∧ st₁.allstr.length = st.allstr.length →
      clientPass lim parse disp st₁ = some st₂ → clientTest st.allstr.length st₂ = true ∧
        At st₂.allstr st₂.start [] tail ∧ st₂.allstr.length = st.allstr.length := by
    rintro st₁ st₂ ⟨h₁, hlen₁⟩ hs
    obtain ⟨allstr, start, hlen, hat, hpass⟩ := clientPass_at lim parse disp h₁ (by simp) htail
    rw [hpass, List.headD_nil, hpm] at hs
    split_ifs at hs
    obtain ⟨screen, -, rfl⟩ := Option.map_eq_some_iff.1 hs
    refine ⟨?_, hat, hlen.trans hlen₁⟩
    have hlt := hat.loopTest.2 (Or.inr hne)
    simp only [clientTest, Bool.not_false, Bool.true_and, decide_eq_true_eq]
    omega
  exact not_returns hbody ⟨h, rfl⟩

/-- `processServerStr` returns from inside the loop. -/
def ReturnsFrom (lim : ImpLimits) (parse : CStr → Option ImpMsg) (disp : Display)
    (st : ClientLoop) (s' : Screen) (ret : Bool) : Prop :=
  ∃ st', Returns (clientPass lim parse disp) (clientTest st.allstr.length) st st' ∧
    st'.screen = s' ∧ st'.failed = ret

/-- A pass that goes wrong keeps the function from returning. -/
theorem not_returnsFrom {st : ClientLoop} (h : clientPass lim parse disp st = none) :
    ¬ReturnsFrom lim parse disp st s' ret := by
  rintro ⟨st', hr, -⟩
  obtain ⟨st₁, hs, -⟩ := returns_step_iff.1 hr
  rw [h] at hs
  cases hs

/-- A segment that does not parse ends the loop. -/
theorem returnsFrom_failed {st st₁ : ClientLoop} (h : clientPass lim parse disp st = some st₁)
    (hf : st₁.failed = true) :
    ReturnsFrom lim parse disp st s' ret ↔ some (st₁.screen, true) = some (s', ret) := by
  have htest : clientTest st.allstr.length st₁ = false := by simp [clientTest, hf]
  have hret : ∀ st', Returns (clientPass lim parse disp) (clientTest st.allstr.length) st st' ↔
      st₁ = st' := by
    intro st'
    rw [returns_step_iff, h]
    simp [htest]
  simp [ReturnsFrom, hret, hf]

/-- A segment that is handled leaves the rest of the buffer, or nothing. -/
theorem returnsFrom_handled {st st₁ : ClientLoop} (h : clientPass lim parse disp st = some st₁)
    (hf : st₁.failed = false) (hlen : st₁.allstr.length = st.allstr.length)
    (hat : At st₁.allstr st₁.start ms tail) : ReturnsFrom lim parse disp st s' ret ↔
      if ms = [] ∧ tail = [] then some (st₁.screen, false) = some (s', ret)
      else ReturnsFrom lim parse disp st₁ s' ret := by
  have htest : clientTest st.allstr.length st₁ = !decide (ms = [] ∧ tail = []) := by
    have hlt := hat.loopTest
    simp only [clientTest, hf, ← hlen, Bool.not_false, Bool.true_and, hlt]
    by_cases hms : ms = [] <;> simp [hms]
  have hret : ∀ st', Returns (clientPass lim parse disp) (clientTest st.allstr.length) st st' ↔
      if ms = [] ∧ tail = [] then st₁ = st'
      else Returns (clientPass lim parse disp) (clientTest st.allstr.length) st₁ st' := by
    intro st'
    rw [returns_step_iff, h]
    by_cases hend : ms = [] ∧ tail = [] <;> simp [htest, hend]
  by_cases hend : ms = [] ∧ tail = [] <;> simp [ReturnsFrom, hret, hend, hf, hlen]

/-- What the loop does from a state in which the buffer holds lines and a tail. -/
theorem returnsFrom_iff {st : ClientLoop} (h : At st.allstr st.start ms tail)
    (hms : ∀ m ∈ ms, IsSegment m) (htail : IsSegment tail) (hne : ms ≠ [] ∨ tail ≠ []) :
    ReturnsFrom lim parse disp st s' ret ↔
      readLines lim parse disp st.screen (ms ++ if tail = [] then [] else [tail]) = some (s', ret) ∧
        (tail ≠ [] → ret = true) := by
  induction ms generalizing st with
  | nil =>
    obtain ⟨allstr, start, hlen, hat, hpass⟩ := clientPass_at lim parse disp h hms htail
    have htl : tail ≠ [] := by simpa using hne
    rw [List.headD_nil] at hpass
    rw [if_neg htl, List.nil_append, readLines]
    by_cases hfit : disp.fits parse tail = true
    swap
    · rw [if_neg hfit] at hpass ⊢
      exact iff_of_false (not_returnsFrom hpass) (by simp)
    rw [if_pos hfit] at hpass ⊢
    cases hpm : parse tail with
    | none =>
      rw [hpm] at hpass
      rw [returnsFrom_failed hpass rfl]
      simp only [Option.some.injEq, Prod.mk.injEq]
      exact ⟨fun ⟨h₁, h₂⟩ => ⟨⟨h₁, h₂⟩, fun _ => h₂.symm⟩, And.left⟩
    | some pm =>
      refine iff_of_false (fun ⟨st', hr, _⟩ => clientPass_stuck htail htl hpm h hr) ?_
      rintro ⟨hread, hret⟩
      obtain ⟨s₁, -, hread⟩ := Option.bind_eq_some_iff.1 hread
      have := (Prod.mk.inj (Option.some.inj hread)).2
      rw [hret htl] at this
      exact Bool.false_ne_true this
  | cons m ms ih =>
    obtain ⟨hm, hms'⟩ := List.forall_mem_cons.1 hms
    obtain ⟨allstr, start, hlen, hat, hpass⟩ := clientPass_at lim parse disp h hms htail
    rw [List.headD_cons] at hpass
    rw [List.tail_cons] at hat
    rw [List.cons_append, readLines]
    by_cases hfit : disp.fits parse m = true
    swap
    · rw [if_neg hfit] at hpass ⊢
      exact iff_of_false (not_returnsFrom hpass) (by simp)
    rw [if_pos hfit] at hpass ⊢
    cases hpm : parse m with
    | none =>
      rw [hpm] at hpass
      rw [returnsFrom_failed hpass rfl]
      simp only [Option.some.injEq, Prod.mk.injEq]
      exact ⟨fun ⟨h₁, h₂⟩ => ⟨⟨h₁, h₂⟩, fun _ => h₂.symm⟩, And.left⟩
    | some pm =>
      simp only [hpm] at hpass
      cases hs : st.screen.handle lim pm with
      | none =>
        rw [hs, Option.map_none] at hpass
        exact iff_of_false (not_returnsFrom hpass) (by simp [hs])
      | some s₁ =>
        rw [hs, Option.map_some] at hpass
        rw [returnsFrom_handled hpass rfl hlen hat]
        split_ifs with hend htl htl
        · simp [hs, hend, readLines]
        · exact absurd hend.2 htl
        · rw [ih hat hms' (Or.inl fun hnil => hend ⟨hnil, htl⟩), if_pos htl]
          simp [hs]
        · rw [ih hat hms' (Or.inr htl), if_neg htl]
          simp [hs]

/-- On a buffer of lines and a piece, `processServerStr` shows and reads the lines in order, up
to the first that does not parse, and goes wrong at one that cannot be shown. It returns if
something does not parse, and otherwise only if there is no piece : a piece that parses is
read for ever. -/
theorem processServerStr_iff (hms : ∀ m ∈ ms, IsSegment m) (htail : IsSegment tail)
    (hne : ms ≠ [] ∨ tail ≠ []) :
    processServerStr lim parse disp s (Lines.unlines ms ++ tail) s' ret ↔
      readLines lim parse disp s (ms ++ if tail = [] then [] else [tail]) = some (s', ret) ∧
        (tail ≠ [] → ret = true) :=
  @returnsFrom_iff lim parse disp ms tail s' ret ⟨Lines.unlines ms ++ tail, 0, s, false⟩
    ⟨[], rfl, rfl⟩ hms htail hne

/-- Two lines that parse, one that does not, and the beginning of a fourth. -/
theorem processServerStr_iff_bad :
    let parse : CStr → Option ImpMsg := fun s =>
      if s = "2 2 alice".toList then some (.ack .login (some "alice".toList))
      else if s = "3 6".toList then some (.error .clientNotBound none) else none
    let disp : Display := ⟨fun m =>
      if m = .ack .login (some "alice".toList) then "ACK LOGIN alice\n".toList
      else "ERROR CLIENT_NOT_BOUND\n".toList, fun _ => "bad message type\n".toList, false⟩
    processServerStr impLimits parse disp ⟨notLoggedIn, []⟩ "2 2 alice\n3 6\nhello\n4 b".toList
      ⟨"alice".toList, [.error .clientNotBound none]⟩ true :=
  (@processServerStr_iff impLimits _ _ ["2 2 alice".toList, "3 6".toList, "hello".toList]
    "4 b".toList _ _ true (by decide) (by decide) (by decide)).2 (by decide)

/-! ## Whole messages -/

/-- `getServerStr` reads the strings that `recv` delivers one after the other. Each leaves room
for a NUL in the buffer. -/
inductive GetServerStr (lim : ImpLimits) (parse : CStr → Option ImpMsg) (disp : Display) :
    Screen → List CStr → Screen → Prop
  | nil {s : Screen} : GetServerStr lim parse disp s [] s
  | cons {s s₁ s₂ : Screen} {str : CStr} {strs : List CStr} (hlen : str.length < buffSize)
    (h : processServerStr lim parse disp s str s₁ false)
    (hs : GetServerStr lim parse disp s₁ strs s₂) :
    GetServerStr lim parse disp s (str :: strs) s₂

/-- The lines of some messages are read as these messages, if they can be shown. -/
theorem readLines_map {format : ImpMsg → CStr} {pms : List ImpMsg}
    (hf : ∀ m ∈ pms, parse (format m) = some m)
    (hshow : ∀ m ∈ pms, disp.fits parse (format m) = true) :
    readLines lim parse disp s (pms.map format) =
      (pms.foldlM (Screen.handle lim) s).map fun s => (s, false) := by
  induction pms generalizing s with
  | nil => rfl
  | cons m pms ih =>
    obtain ⟨hm, hpms⟩ := List.forall_mem_cons.1 hf
    obtain ⟨hfit, hshow⟩ := List.forall_mem_cons.1 hshow
    rw [List.map_cons, readLines, if_pos hfit, hm, List.foldlM_cons]
    cases hs : s.handle lim m with
    | none => simp [hs]
    | some s₁ =>
      simp only [hs, Option.bind_some]
      exact ih hpms hshow

/-- However the network groups whole messages, the client handles them in order. -/
theorem getServerStr_iff {format : ImpMsg → CStr} {groups : List (List ImpMsg)}
    (hne : ∀ g ∈ groups, g ≠ [])
    (hlen : ∀ g ∈ groups, (Lines.unlines (g.map format)).length < buffSize)
    (hf : ∀ m ∈ groups.flatten, IsSegment (format m) ∧ parse (format m) = some m)
    (hshow : ∀ m ∈ groups.flatten, disp.fits parse (format m) = true) :
    GetServerStr lim parse disp s (groups.map fun g => Lines.unlines (g.map format)) s' ↔
      groups.flatten.foldlM (Screen.handle lim) s = some s' := by
  induction groups generalizing s with
  | nil =>
    constructor
    · rintro ⟨⟩
      rfl
    · intro h
      obtain rfl := Option.some.inj h
      exact .nil
  | cons g groups ih =>
    obtain ⟨hg, hne⟩ := List.forall_mem_cons.1 hne
    obtain ⟨hgl, hlen⟩ := List.forall_mem_cons.1 hlen
    rw [List.flatten_cons] at hf hshow ⊢
    obtain ⟨hfg, hf⟩ := List.forall_mem_append.1 hf
    obtain ⟨hshowg, hshow⟩ := List.forall_mem_append.1 hshow
    have hone : ∀ s₁, processServerStr lim parse disp s (Lines.unlines (g.map format)) s₁ false ↔
        g.foldlM (Screen.handle lim) s = some s₁ := by
      intro s₁
      have hseg : ∀ m ∈ g.map format, IsSegment m := by
        simpa using fun m hm => (hfg m hm).1
      have h := @processServerStr_iff lim parse disp (g.map format) [] s s₁ false hseg
        (⟨List.not_mem_nil, List.not_mem_nil⟩ : IsSegment []) (Or.inl (by simpa using hg))
      simpa [readLines_map (fun m hm => (hfg m hm).2) hshowg] using h
    rw [List.foldlM_append, List.map_cons]
    constructor
    · rintro (_ | ⟨-, h, hs⟩)
      exact Option.bind_eq_some_iff.2 ⟨_, (hone _).1 h, (ih hne hlen hf hshow).1 hs⟩
    · intro h
      obtain ⟨s₁, h₁, hs⟩ := Option.bind_eq_some_iff.1 h
      exact .cons hgl ((hone s₁).2 h₁) ((ih hne hlen hf hshow).2 hs)

/-! ## The prompt -/

variable {db db' : Db} {u v : DbUser} {n : CStr} {c : ℕ} {ev : Event} {out : List Sent}
  {pms : List ImpMsg}

/-- The messages that change the name in the prompt. -/
def ImpMsg.renames : ImpMsg → Bool
  | .ack .login _ | .ack .logout _ => true
  | _ => false

theorem handle_quiet {pm : ImpMsg} (h : pm.renames = false) :
    ∃ s', s.handle lim pm = some s' ∧ s'.myself = s.myself := by
  unfold Screen.handle
  split
  · cases h
  · cases h
  · exact ⟨_, rfl, rfl⟩
  · split_ifs <;> exact ⟨_, rfl, rfl⟩
  · exact ⟨_, rfl, rfl⟩
  · exact ⟨_, rfl, rfl⟩

theorem foldlM_quiet (h : ∀ pm ∈ pms, pm.renames = false) :
    ∃ s', pms.foldlM (Screen.handle lim) s = some s' ∧ s'.myself = s.myself := by
  induction pms generalizing s with
  | nil => exact ⟨s, rfl, rfl⟩
  | cons pm pms ih =>
    obtain ⟨hpm, hpms⟩ := List.forall_mem_cons.1 h
    obtain ⟨s₁, hs₁, hm₁⟩ : ∃ s₁, s.handle lim pm = some s₁ ∧ s₁.myself = s.myself :=
      handle_quiet hpm
    obtain ⟨s', hs', hm'⟩ := ih (s := s₁) hpms
    exact ⟨s', by rw [List.foldlM_cons, hs₁]; exact hs', hm'.trans hm₁⟩

/-- The prompt names the user bound to the connection, if there is one. -/
structure Shows (db : Db) (c : ℕ) (s : Screen) : Prop where
  bound : ∀ u ∈ db.users, u.connfd = c → s.myself = u.name
  unbound : (∀ u ∈ db.users, u.connfd ≠ c) → s.myself = notLoggedIn

/-- The prompt stays right if the bindings of the connection stay as they are and the client
is told of no change. -/
theorem shows_quiet (h : Shows db c s)
    (hkept : ∀ v ∈ db'.users, v.connfd = c → ∃ u ∈ db.users, u.connfd = c ∧ u.name = v.name)
    (hback : ∀ u ∈ db.users, u.connfd = c → ∃ v ∈ db'.users, v.connfd = c)
    (hquiet : ∀ pm ∈ incoming c out, pm.renames = false) :
    ∃ s', (incoming c out).foldlM (Screen.handle lim) s = some s' ∧ Shows db' c s' := by
  obtain ⟨s', hs', hm⟩ : ∃ s', (incoming c out).foldlM (Screen.handle lim) s = some s' ∧
      s'.myself = s.myself := foldlM_quiet hquiet
  refine ⟨s', hs', fun v hv hvc => ?_, fun hno => ?_⟩
  · obtain ⟨u, hu, huc, hn⟩ := hkept v hv hvc
    rw [hm, h.bound u hu huc, hn]
  · refine hm.trans (h.unbound fun u hu huc => ?_)
    obtain ⟨v, hv, hvc⟩ := hback u hu huc
    exact hno v hv hvc

/-- New friend lists leave the bindings as they are. -/
theorem shows_relist {g : DbUser → List DbFriend} (h : Shows db c s)
    (hquiet : ∀ pm ∈ incoming c out, pm.renames = false) :
    ∃ s', (incoming c out).foldlM (Screen.handle lim) s = some s' ∧ Shows (db.relist g) c s' := by
  refine shows_quiet h (fun v hv hvc => ?_) (fun u hu huc => ?_) hquiet
  · obtain ⟨u, hu, rfl⟩ := List.mem_map.1 hv
    exact ⟨u, hu, hvc, rfl⟩
  · exact ⟨_, List.mem_map_of_mem hu, huc⟩

theorem renames_tellBoth {d : ℕ} {m₁ m₂ : ImpMsg} (h₁ : m₁.renames = false)
    (h₂ : m₂.renames = false) : ∀ pm ∈ incoming c (tellBoth d u m₁ m₂), pm.renames = false := by
  intro pm hpm
  rcases mem_tellBoth (mem_incoming.1 hpm) with heq | heq
  · rwa [(Sent.mk.inj heq).2]
  · rwa [(Sent.mk.inj heq).2]

theorem incoming_cons (d : ℤ) (pm : ImpMsg) (out : List Sent) :
    incoming c (⟨d, pm⟩ :: out) = if d = c then pm :: incoming c out else incoming c out := by
  simp only [incoming, List.filter_cons, decide_eq_true_eq]
  split_ifs <;> rfl

/-- A message about the prompt, and others on any connections behind it. -/
theorem foldlM_incoming {d : ℕ} {pm : ImpMsg} {s₁ : Screen} (hs₁ : s.handle lim pm = some s₁)
    (hquiet : ∀ m ∈ out, m.msg.renames = false) : ∃ s',
    (incoming c (⟨d, pm⟩ :: out)).foldlM (Screen.handle lim) s = some s' ∧
      s'.myself = if d = c then s₁.myself else s.myself := by
  have hq : ∀ pm ∈ incoming c out, pm.renames = false :=
    fun pm hpm => hquiet _ (mem_incoming.1 hpm)
  rw [incoming_cons]
  by_cases hd : d = c
  · obtain ⟨s', hs', hm⟩ : ∃ s', (incoming c out).foldlM (Screen.handle lim) s₁ = some s' ∧
        s'.myself = s₁.myself := foldlM_quiet hq
    rw [if_pos hd, if_pos (by omega), List.foldlM_cons, hs₁]
    exact ⟨s', hs', hm⟩
  · obtain ⟨s', hs', hm⟩ : ∃ s', (incoming c out).foldlM (Screen.handle lim) s = some s' ∧
        s'.myself = s.myself := foldlM_quiet hq
    rw [if_neg hd, if_neg (by omega)]
    exact ⟨s', hs', hm⟩

theorem shows_loggedIn {d : ℕ} (h : Shows db c s) (hrep : db.Rep)
    (hu : db.findUser n = some u) (ha : u.active = .not) (huniq : (db.rebind n .yes d).Unique)
    (hlen : n.length ≤ lim.nameMaxlen) (hquiet : ∀ m ∈ out, m.msg.renames = false) :
    ∃ s', (incoming c (⟨d, .ack .login (some n)⟩ :: out)).foldlM (Screen.handle lim) s = some s' ∧
      Shows (db.rebind n .yes d) c s' := by
  have hum := Db.mem_of_findUser hu
  obtain rfl := Db.name_of_findUser hu
  have hu' : u.rebind .yes d ∈ (db.rebind u.name .yes d).users :=
    Db.mem_rebind.2 ⟨u, hum, by simp⟩
  have hset : s.handle lim (.ack .login (some u.name)) = some { s with myself := u.name } :=
    if_pos hlen
  obtain ⟨s', hs', hm⟩ := foldlM_incoming (c := c) (d := d) hset hquiet
  refine ⟨s', hs', ?_⟩
  by_cases hd : d = c
  · subst hd
    rw [if_pos rfl] at hm
    refine ⟨fun v hv hvc => ?_, fun hno => absurd rfl (hno _ hu')⟩
    rw [hm, huniq.eq hv hu' hvc rfl]
    rfl
  · rw [if_neg hd] at hm
    have hoff : u.connfd ≠ c := fun huc => by simp [hrep.active_of_connfd hum huc] at ha
    refine ⟨fun v hv hvc => ?_, fun hno => ?_⟩
    · obtain ⟨x, hx, rfl⟩ := Db.mem_rebind.1 hv
      split_ifs at hvc ⊢ with hxn
      · simp only [DbUser.rebind] at hvc
        omega
      · exact hm.trans (h.bound x hx hvc)
    · refine hm.trans (h.unbound fun x hx hxc => ?_)
      refine hno x (Db.mem_rebind.2 ⟨x, hx, if_neg fun hxn => hoff ?_⟩) hxc
      rw [← List.inj_on_of_nodup_map hrep.names hx hum hxn]
      exact hxc

theorem shows_loggedOut {d : ℕ} (h : Shows db c s) (hrep : db.Rep) (hu : db.findConn d = some u)
    (huniq : db.Unique) (hlim : notLoggedIn.length ≤ lim.nameMaxlen)
    (hquiet : ∀ m ∈ out, m.msg.renames = false) :
    ∃ s', (incoming c (⟨d, .ack .logout none⟩ :: out)).foldlM (Screen.handle lim) s = some s' ∧
      Shows (db.rebind u.name .not (-1)) c s' := by
  have hum := Db.mem_of_findConn hu
  have huc := Db.connfd_of_findConn hu
  have hset : s.handle lim (.ack .logout none) = some { s with myself := notLoggedIn } :=
    if_pos hlim
  obtain ⟨s', hs', hm⟩ := foldlM_incoming (c := c) (d := d) hset hquiet
  refine ⟨s', hs', ?_⟩
  by_cases hd : d = c
  · subst hd
    rw [if_pos rfl] at hm
    refine ⟨fun v hv hvc => ?_, fun _ => hm⟩
    -- the only user bound to the connection is the one who is logged out
    obtain ⟨x, hx, rfl⟩ := Db.mem_rebind.1 hv
    split_ifs at hvc with hxn
    · simp [DbUser.rebind] at hvc
    · exact absurd (congrArg DbUser.name (huniq.eq hx hum hvc huc)) hxn
  · rw [if_neg hd] at hm
    refine ⟨fun v hv hvc => ?_, fun hno => hm.trans (h.unbound fun x hx hxc => ?_)⟩
    · obtain ⟨x, hx, rfl⟩ := Db.mem_rebind.1 hv
      split_ifs at hvc ⊢ with hxn
      · simp only [DbUser.rebind] at hvc
        omega
      · exact hm.trans (h.bound x hx hvc)
    · refine hno x (Db.mem_rebind.2 ⟨x, hx, if_neg fun hxn => hd ?_⟩) hxc
      have hxu := List.inj_on_of_nodup_map hrep.names hx hum hxn
      rw [hxu, huc] at hxc
      omega

theorem shows_step (h : Shows db c s) (hrep : db.Rep) (huniq : db.Unique) (huniq' : db'.Unique)
    (hnames : ∀ n ∈ db.names, n.length ≤ lim.nameMaxlen)
    (hlim : notLoggedIn.length ≤ lim.nameMaxlen) (he : Effect lim db ev db' out) :
    ∃ s', (incoming c out).foldlM (Screen.handle lim) s = some s' ∧ Shows db' c s' := by
  have hsame : ∀ out : List Sent, (∀ pm ∈ incoming c out, pm.renames = false) →
      ∃ s', (incoming c out).foldlM (Screen.handle lim) s = some s' ∧ Shows db c s' :=
    fun out => shows_quiet h (fun v hv hvc => ⟨v, hv, hvc, rfl⟩) fun u hu huc => ⟨u, hu, huc⟩
  have hown : ∀ (db : Db) (d : ℕ) (u : DbUser), ∀ m ∈ ownStatus db d u, m.msg.renames = false := by
    intro db d u m hm
    obtain ⟨e, -, rfl⟩ := List.mem_map.1 hm
    rfl
  have hfriends : ∀ (db : Db) (n : CStr) (a : ImpActive) (l : List DbFriend),
      ∀ m ∈ (activeFriends db l).map fun f => (⟨f.connfd, .status n .yes a⟩ : Sent),
        m.msg.renames = false := by
    intro db n a l m hm
    obtain ⟨f, -, rfl⟩ := List.mem_map.1 hm
    rfl
  cases he with
  | rejected ev et name =>
    refine hsame _ fun pm hpm => ?_
    rw [(Sent.mk.inj (List.mem_singleton.1 (mem_incoming.1 hpm))).2]
    rfl
  | ignored => exact hsame _ (by simp [incoming])
  | @registered d n _ hn =>
    refine shows_quiet h (fun v hv hvc => ?_)
      (fun u hu huc => ⟨u, List.mem_append_left _ hu, huc⟩) fun pm hpm => ?_
    · rcases List.mem_append.1 hv with hv | hv
      · exact ⟨v, hv, hvc, rfl⟩
      · rw [List.mem_singleton.1 hv] at hvc
        simp [dbUserInit] at hvc
    · rw [(Sent.mk.inj (List.mem_singleton.1 (mem_incoming.1 hpm))).2]
      rfl
  | @loggedIn d n u hu ha =>
    refine shows_loggedIn h hrep hu ha huniq' (hnames n (Db.mem_names.2 ⟨u, hu⟩)) fun m hm => ?_
    exact (List.mem_append.1 hm).elim (hown _ _ _ m) (hfriends _ _ _ _ m)
  | @loggedOut ev u _ hu =>
    exact shows_loggedOut h hrep hu huniq hlim (hfriends _ _ _ _)
  | asked => exact shows_relist h (renames_tellBoth rfl rfl)
  | befriended => exact shows_relist h (renames_tellBoth rfl rfl)
  | parted => exact shows_relist h (renames_tellBoth rfl rfl)
  | listed => exact hsame _ fun pm hpm => hown _ _ _ _ (mem_incoming.1 hpm)
  | delivered =>
    refine hsame _ fun pm hpm => ?_
    rcases List.mem_cons.1 (mem_incoming.1 hpm) with heq | hmem
    · rw [(Sent.mk.inj heq).2]
      rfl
    · rw [(Sent.mk.inj (List.mem_singleton.1 hmem)).2]
      rfl

/-- What a run keeps for the client on a connection : behind the messages `out` its prompt is
right. -/
structure Prompted (lim : ImpLimits) (c : ℕ) (s : Screen) (db : Db) (out : List Sent) : Prop where
  rep : db.Rep
  unique : db.Unique
  names : ∀ n ∈ db.names, n.length ≤ lim.nameMaxlen
  shows : ∃ s', (incoming c out).foldlM (Screen.handle lim) s = some s' ∧ Shows db c s'

theorem prompted_step {out' : List Sent} (h : Prompted lim c s db out)
    (hlim : notLoggedIn.length ≤ lim.nameMaxlen) (hno : NoSecondLogin db ev)
    (hs : step lim db ev = some (db', out')) : Prompted lim c s db' (out ++ out') := by
  have heff := effect_of_step h.rep hs
  have huniq' := unique_step_login h.unique hno hs
  refine ⟨heff.rep h.rep, huniq', ?_, ?_⟩
  · rcases heff.names with hn | ⟨d, n, -, hv, -, rfl⟩
    · rw [hn]
      exact h.names
    · intro m hm
      simp only [Db.names, Db.append, List.map_append, List.mem_append] at hm
      rcases hm with hm | hm
      · exact h.names m hm
      · obtain rfl : m = n := by simpa [dbUserInit] using hm
        by_contra hlen
        simp [validUserName, hlen] at hv
  · obtain ⟨s₁, hs₁, h₁⟩ := h.shows
    obtain ⟨s', hs', h'⟩ := shows_step h₁ h.rep h.unique huniq' h.names hlim heff
    refine ⟨s', ?_, h'⟩
    rw [incoming_append, List.foldlM_append, hs₁]
    exact hs'

/-- A client connects to the server, and no client that is logged in logs in as another user.
Whatever all clients do, and however the network groups the messages of the server, once the
client has read what it was sent its prompt names the user bound to its connection, or says
that there is none. `impStrNew` and `impStrToMsg` are the parameters `format` and `parse`, and
the client is quiet or can show each message. -/
theorem prompt_of_run (h : db.Rep) (huniq : db.Unique) (hnew : ∀ u ∈ db.users, u.connfd ≠ c)
    (hnames : ∀ n ∈ db.names, n.length ≤ lim.nameMaxlen)
    (hlim : notLoggedIn.length ≤ lim.nameMaxlen) {evs : List Event}
    (hno : Machine.AllSteps (step lim) NoSecondLogin db evs)
    (hr : Machine.run (step lim) db evs = some (db', out)) {format : ImpMsg → CStr}
    (hf : ∀ m ∈ incoming c out, IsSegment (format m) ∧ parse (format m) = some m)
    (hshow : ∀ m ∈ incoming c out, disp.fits parse (format m) = true)
    {groups : List (List ImpMsg)} (hgroups : groups.flatten = incoming c out)
    (hne : ∀ g ∈ groups, g ≠ [])
    (hlen : ∀ g ∈ groups, (Lines.unlines (g.map format)).length < buffSize) :
    ∃ s', GetServerStr lim parse disp ⟨notLoggedIn, []⟩
        (groups.map fun g => Lines.unlines (g.map format)) s' ∧
      (∀ u ∈ db'.users, u.connfd = c → s'.myself = u.name) ∧
      ((∀ u ∈ db'.users, u.connfd ≠ c) → s'.myself = notLoggedIn) := by
  have hstart : Prompted lim c ⟨notLoggedIn, []⟩ db [] :=
    ⟨h, huniq, hnames, _, rfl, fun u hu huc => absurd huc (hnew u hu), fun _ => rfl⟩
  have hend := Machine.run_invariant_out_of_allSteps
    (fun _ _ _ _ _ hp hC hs => prompted_step hp hlim hC hs) hstart hno hr
  obtain ⟨s', hs', hbound, hunbound⟩ := hend.shows
  rw [List.nil_append, ← hgroups] at hs'
  exact ⟨s', (getServerStr_iff hne hlen (hgroups ▸ hf) (hgroups ▸ hshow)).2 hs', hbound, hunbound⟩

/-- The strings of the messages that the client on 4 gets in `visit`. -/
def visitStrings : List (ImpMsg × CStr) :=
  [(.ack .login (some "alice".toList), "2 2 alice".toList),
    (.status "bob".toList .requested .not, "4 bob 2 0".toList),
    (.status "bob".toList .yes .yes, "4 bob 4 1".toList),
    (.status "bob".toList .yes .not, "4 bob 4 0".toList)]

/-- What is shown of them. -/
def visitDisplay : Display :=
  ⟨fun m => if m = .ack .login (some "alice".toList) then "ACK LOGIN alice\n".toList
    else "STATUS bob\n".toList, fun _ => [], false⟩

/-- Alice's client gets two messages with one `recv` and then two with another. -/
theorem prompt_of_run_visit : ∃ db' out,
    Machine.run (step impLimits) Db.offlineDuo visit = some (db', out) ∧
      ∃ s', GetServerStr impLimits
        (fun s => (visitStrings.find? fun e => e.2 = s).map Prod.fst) visitDisplay ⟨notLoggedIn, []⟩
        ["2 2 alice\n4 bob 2 0\n".toList, "4 bob 4 1\n4 bob 4 0\n".toList] s' ∧
        s'.myself = "alice".toList := by
  refine ⟨_, _, rfl, ?_⟩
  obtain ⟨s', hs', hbound, -⟩ := @prompt_of_run impLimits
    (fun s => (visitStrings.find? fun e => e.2 = s).map Prod.fst) visitDisplay Db.offlineDuo _ 4 _
    (by decide) (Db.Offline.unique (by decide)) (by decide) (by decide) (by decide) visit
    (by decide) rfl
    (fun m => ((visitStrings.find? fun e => e.1 = m).map Prod.snd).getD []) (by decide) (by decide)
    [[.ack .login (some "alice".toList), .status "bob".toList .requested .not],
      [.status "bob".toList .yes .yes, .status "bob".toList .yes .not]]
    rfl (by decide) (by decide)
  exact ⟨s', hs', hbound ⟨"alice".toList, .yes, 4, [⟨some "bob".toList, .yes, yes_ne⟩]⟩
    (by decide) rfl⟩

end Ims

end ClassProjects
