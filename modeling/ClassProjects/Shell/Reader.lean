import ClassProjects.Lib.Chunks
import ClassProjects.Lib.DoWhile
import ClassProjects.Lib.Lines
import ClassProjects.Shell.Process
import Mathlib.Data.List.Forall2

/-!
# The lines that the shell reads

The loop of `main` over its input : `fgets` fills the buffer, and a line that is too long is
printed chunk by chunk until its end. Every other line goes to the rest of the body, which is
`mainBody`. What the input is, and what the programs that are started do to it, is a parameter
(`Input`).

Here the loop runs on a `stream`, which only `fgets` takes characters from. It reads a line as
its first 513 characters (`fgets_line`), so both loops move along one line at a time
(`readPass_line`). But the inner loop does not look at what `fgets` returns. At the end of the
input the buffer stays as it is, and if it is full the loop does not end (`readPass_sticks`).
So on a stream the shell ends, unless it gets to a last line without a newline that fills the
buffer some number of times (`exists_mainLoop`, `linesRead_of_mainLoop`).
-/

namespace ClassProjects

namespace Shell

open DoWhile Lines

/-- `fgets` : what it stores of the next line, and what is left of the input. `none` is NULL,
at the end of the input. -/
def fgets (n : ℕ) (source : List Char) : Option (CStr × List Char) :=
  match source with
  | [] => none
  | c :: s =>
    let (chunk, rest) := Chunks.chunk (· = '\n') (n - 1) (c :: s)
    some (cstr chunk, rest)

/-- What the shell reads from : `fgets`, and what is left of the input when the effects of the
last of the lines that were handed on have been carried out. -/
structure Input (σ : Type) where
  fgets : ℕ → σ → Option (CStr × σ)
  after : List CStr → List Effect → σ → σ

/-- Characters that only `fgets` takes. -/
def stream : Input (List Char) where
  fgets := fgets
  after _ _ source := source

/-- The two ways the shell ends. -/
inductive Ending
  | endOfFile | exitCommand
deriving DecidableEq

/-- The input that is left and the buffer, and what has been done : the calls of `fgets`, the
buffers handed to `blank_line` and what follows it, the characters of the input that were
printed, and all effects. -/
structure Reader (σ : Type) where
  source : σ
  cmdBuff : CStr
  calls : ℕ
  handed : List CStr
  echoed : CStr
  out : List Effect
  ended : Option Ending
deriving DecidableEq

section Loop

variable {σ : Type} (input : Input σ)

/-- The state in which the loop starts. -/
def Reader.init (source : σ) : Reader σ :=
  ⟨source, [], 0, [], [], [], none⟩

/-- `my_print(cmd_buff)`. -/
def Reader.print (st : Reader σ) : Reader σ :=
  { st with echoed := st.echoed ++ st.cmdBuff, out := st.out ++ [.myPrint st.cmdBuff] }

/-- `fgets(cmd_buff, MAX_CMDLINE, source)`, and whether it returned a line. At the end of the
input it leaves the buffer as it is. -/
def Reader.fill (st : Reader σ) : Bool × Reader σ :=
  match input.fgets maxCmdline st.source with
  | none => (false, { st with calls := st.calls + 1 })
  | some (cmdBuff, source) =>
    (true, { st with cmdBuff := cmdBuff, source := source, calls := st.calls + 1 })

/-- A pass of the loop that skips a line. -/
def skipBody (st : Reader σ) : Option (Reader σ) :=
  some (st.print.fill input).2

/-- Its test. -/
def skipTest (st : Reader σ) : Bool :=
  tooLongLine st.cmdBuff

/-- The loop that skips a line. -/
def skipLine (fuel : ℕ) (st : Reader σ) : Option (Reader σ) :=
  exec (skipBody input) skipTest fuel st

/-- What is printed before a line is read. -/
def prompt (interactive : Bool) : List Effect :=
  if interactive then [.myPrint "myshell> ".toList] else []

/-- Behind a line that was too long, its last chunk is in the buffer. -/
def Reader.endSkip (st : Reader σ) : Reader σ :=
  { st.print with out := st.print.out ++ [error] }

/-- The rest of the body, for a line that is not too long. -/
def Reader.handOn (st : Reader σ) (effects : List Effect) : Reader σ :=
  { st with
    source := input.after (st.handed ++ [st.cmdBuff]) effects st.source
    handed := st.handed ++ [st.cmdBuff]
    echoed := st.echoed ++ if blankLine st.cmdBuff then [] else st.cmdBuff
    out := st.out ++ effects
    ended := if effects.any (fun e => e = .exit) then some .exitCommand else none }

/-- A pass of the loop of `main`. -/
def readPass (interactive : Bool) (fuel : ℕ) (st : Reader σ) : Option (Reader σ) :=
  let (pinput, st) := { st with out := st.out ++ prompt interactive }.fill input
  if !pinput then some { st with ended := some .endOfFile }
  else
    match mainBody st.cmdBuff with
    | none => (skipLine input fuel st).map Reader.endSkip
    | some effects => some (st.handOn input effects)

/-- The loop of `main` on an input ends in the state `st`. -/
def mainLoop (interactive : Bool) (source : σ) (st : Reader σ) : Prop :=
  Ends (readPass input interactive) (fun st => st.ended.isNone) (.init source) st

/-- It gets to the state `st` behind a pass, whether it ends or not. -/
def mainReaches (interactive : Bool) (source : σ) (st : Reader σ) : Prop :=
  ∃ fuel, Reaches (readPass input interactive fuel) (fun st => st.ended.isNone) (.init source) st

end Loop

/-! ## The lines of the input -/

/-- The line, with its newline if it has one, fits the buffer. -/
def fits (b : CStr) : Bool :=
  b.length ≤ 513 ∧ tooLongLine b = false

/-- The line executes `exit`. -/
def exits (b : CStr) : Bool :=
  fits b && (mainBody b).any fun effects => effects.any fun e => e = .exit

/-- The line has no newline, and fills the buffer some number of times. -/
def sticks (b : CStr) : Bool :=
  b.getLast? ≠ some '\n' ∧ b.length % 513 = 0

/-- The lines that are read : those up to the first that executes `exit`. -/
def throughExit : List CStr → List CStr
  | [] => []
  | b :: bs => if exits b then [b] else b :: throughExit bs

/-- What is done for a line : it is handed on if it fits, and else printed as it is, with one
error behind it. -/
def LineEffects (b : CStr) (effects : List Effect) : Prop :=
  if fits b then mainBody b = some effects
  else ∃ chunks : List CStr, chunks.flatten = b ∧ effects = chunks.map .myPrint ++ [error]

variable {b rest : List Char} {bs : List CStr} {st st' : Reader (List Char)} {interactive : Bool}
  {n m : ℕ}

theorem tooLongLine_iff : tooLongLine b = true ↔ b.length = 513 ∧ b.getLast? ≠ some '\n' := by
  rw [tooLongLine, decide_eq_true_eq]
  refine and_congr_right fun h => ?_
  rw [List.getLast?_eq_getElem?, h, List.getD_eq_getElem?_getD, maxCmdline]
  obtain ⟨c, hc⟩ : ∃ c, b[512]? = some c := ⟨_, List.getElem?_eq_getElem (by omega)⟩
  simp [hc]

theorem mainBody_eq_none : mainBody b = none ↔ tooLongLine b = true := by
  rw [mainBody]
  split_ifs <;> simp_all

theorem fits_iff : fits b = true ↔ b.length ≤ 513 ∧ tooLongLine b = false :=
  decide_eq_true_iff

theorem exits_eq_any {effects : List Effect} (hfits : fits b = true)
    (hbody : mainBody b = some effects) : exits b = effects.any fun e => e = .exit := by
  rw [exits, hfits, hbody, Bool.true_and, Option.any_some]

/-- A line executes `exit` if it fits, does not start with `>` and has a command that is `exit`
alone. -/
theorem exits_iff : exits b = true ↔ fits b = true ∧ blankLine b = false ∧
    b.head? ≠ some '>' ∧ [["exit".toList]] ∈ parseCommandLine b := by
  rw [exits, Bool.and_eq_true]
  refine and_congr_right fun hfits => ?_
  have hlong : tooLongLine b = false := (fits_iff.1 hfits).2
  rw [mainBody, hlong, if_neg Bool.false_ne_true]
  cases hblank : blankLine b with
  | true => simp
  | false =>
    rw [if_neg Bool.false_ne_true, ← exit_mem_processCommandLine]
    split_ifs with hhead <;> simp [hhead, error]

/-- `fgets` reads the first 513 characters of a line. -/
theorem fgets_line (h : IsLine b rest) (h0 : '\x00' ∉ b) :
    fgets maxCmdline (b ++ rest) = some (b.take 513, b.drop 513 ++ rest) := by
  have hne : b ≠ [] := List.ne_nil_of_length_pos h.length_pos
  have hchunk : Chunks.chunk (· = '\n') 513 (b ++ rest) = (b.take 513, b.drop 513 ++ rest) := by
    have hnot : ∀ {t : List Char}, '\n' ∉ t → ∀ c ∈ t, decide (c = '\n') = false :=
      fun ht c hc => decide_eq_false fun he => ht (he ▸ hc)
    rcases h with ⟨t, ht, rfl⟩ | ⟨hb, -, rfl⟩
    · rw [List.append_assoc, List.singleton_append]
      by_cases hlen : t.length < 513
      · rw [Chunks.chunk_of_lt (hnot ht) (by decide) hlen, List.take_of_length_le
          (by simp; omega), List.drop_of_length_le (by simp; omega), List.nil_append]
      · rw [Chunks.chunk_of_le (hnot ht) (by omega), List.take_append_of_le_length (by omega),
          List.drop_append_of_le_length (by omega), List.append_assoc, List.singleton_append]
    · rw [List.append_nil, List.append_nil]
      by_cases hlen : b.length < 513
      · rw [Chunks.chunk_eq_self (hnot hb) (by omega), List.take_of_length_le (by omega),
          List.drop_of_length_le (by omega)]
      · rw [← List.append_nil b, Chunks.chunk_of_le (hnot hb) (by omega), List.append_nil,
          List.append_nil]
  have h0' : '\x00' ∉ b.take 513 := fun h => h0 (List.mem_of_mem_take h)
  obtain ⟨c, s, hcs⟩ : ∃ c s, b ++ rest = c :: s :=
    List.exists_cons_of_ne_nil (List.append_ne_nil_of_left_ne_nil hne rest)
  rw [hcs] at hchunk ⊢
  simp only [fgets, maxCmdline, Nat.add_one_sub_one, hchunk, cstr_eq_self h0']

theorem length_of_drop_ne_nil (hne : b.drop 513 ≠ []) : 513 < b.length := by
  rwa [ne_eq, List.drop_eq_nil_iff, not_le] at hne

/-- What does not fit is the rest of a line. -/
theorem isLine_drop (h : IsLine b rest) (hne : b.drop 513 ≠ []) : IsLine (b.drop 513) rest := by
  have hlen := length_of_drop_ne_nil hne
  rcases h with ⟨t, ht, rfl⟩ | ⟨hb, -, rfl⟩
  · rw [List.length_append, List.length_singleton] at hlen
    refine Or.inl ⟨t.drop 513, fun hmem => ht (List.mem_of_mem_drop hmem), ?_⟩
    rw [List.drop_append_of_le_length (by omega)]
  · exact Or.inr ⟨fun hmem => hb (List.mem_of_mem_drop hmem), hne, rfl⟩

theorem sticks_drop (hne : b.drop 513 ≠ []) : sticks (b.drop 513) = sticks b := by
  have hlen := length_of_drop_ne_nil hne
  have hlast : (b.drop 513).getLast? = b.getLast? := by
    conv_rhs => rw [← List.take_append_drop 513 b, List.getLast?_append_of_ne_nil _ hne]
  have hmod : (b.length - 513) % 513 = b.length % 513 := by omega
  rw [sticks, sticks, hlast, List.length_drop, hmod]

/-- The first characters of a longer line have no newline at their end. -/
theorem tooLongLine_take (h : IsLine b rest) (hne : b.drop 513 ≠ []) :
    tooLongLine (b.take 513) = true := by
  have hlen := length_of_drop_ne_nil hne
  rw [tooLongLine_iff, List.length_take]
  refine ⟨by omega, fun hlast => ?_⟩
  have hmem := List.mem_of_getLast? hlast
  rcases h with ⟨t, ht, rfl⟩ | ⟨hb, -, -⟩
  · rw [List.length_append, List.length_singleton] at hlen
    rw [List.take_append_of_le_length (by omega)] at hmem
    exact ht (List.mem_of_mem_take hmem)
  · exact hb (List.mem_of_mem_take hmem)

/-- A chunk that ends a line is not taken for a line that goes on, unless the line sticks. -/
theorem tooLongLine_eq_sticks (h : IsLine b rest) (hnil : b.drop 513 = []) :
    tooLongLine b = sticks b := by
  have hlen : b.length ≤ 513 := by rwa [List.drop_eq_nil_iff] at hnil
  have hpos := h.length_pos
  have hmod : b.length = 513 ↔ b.length % 513 = 0 := by omega
  rw [Bool.eq_iff_iff, tooLongLine_iff, hmod, sticks, decide_eq_true_eq, and_comm]

/-- A chunk that is not too long is the line. -/
theorem eq_of_fgets (h : IsLine b rest) (h0 : '\x00' ∉ b) {buff : CStr} {rest' : List Char}
    (hf : fgets maxCmdline (b ++ rest) = some (buff, rest')) (hlong : tooLongLine buff = false) :
    buff = b ∧ rest' = rest ∧ fits b = true := by
  rw [fgets_line h h0] at hf
  obtain ⟨rfl, rfl⟩ := Prod.mk.inj (Option.some.inj hf)
  have hnil : b.drop 513 = [] := by
    by_contra hne
    rw [tooLongLine_take h hne] at hlong
    cases hlong
  have hlen : b.length ≤ 513 := List.drop_eq_nil_iff.1 hnil
  rw [List.take_of_length_le hlen] at hlong ⊢
  exact ⟨rfl, by rw [hnil, List.nil_append], fits_iff.2 ⟨hlen, hlong⟩⟩

/-! ## Skipping a line -/

/-- Behind the loop that skips a line, with `b` left of it before : what is left is the rest of
the input, and all has been printed but the last chunk, which is in the buffer. -/
structure Skipped (b rest : List Char) (st st' : Reader (List Char)) : Prop where
  source : st'.source = rest
  ended : st'.ended = st.ended
  handed : st'.handed = st.handed
  calls : st'.calls ≤ st.calls + b.length
  out : ∃ chunks : List CStr, chunks.flatten ++ st'.cmdBuff = st.cmdBuff ++ b ∧
    st'.echoed = st.echoed ++ chunks.flatten ∧ st'.out = st.out ++ chunks.map .myPrint

/-- The state when the first 513 characters of a line have been read. -/
def Reader.next (st : Reader (List Char)) (b rest : List Char) :
    Reader (List Char) :=
  { st with cmdBuff := b.take 513, source := b.drop 513 ++ rest, calls := st.calls + 1 }

theorem fill_line (st : Reader (List Char)) (hb : IsLine b rest) (h0 : '\x00' ∉ b)
    (hs : st.source = b ++ rest) : st.fill stream = (true, st.next b rest) := by
  have hread : stream.fgets maxCmdline st.source = some (b.take 513, b.drop 513 ++ rest) := by
    rw [hs]
    exact fgets_line hb h0
  rw [Reader.fill, hread]
  rfl

/-- The loop ends behind the line, unless the line sticks. -/
theorem skipLine_ends (hb : IsLine b rest) (h0 : '\x00' ∉ b) (hstick : sticks b = false)
    (hs : st.source = b ++ rest) : ∃ fuel st', skipLine stream fuel st = some st' ∧
      Skipped b rest st st' := by
  induction hn : b.length using Nat.strongRecOn generalizing b st with
  | ind n ih =>
    have hbody : skipBody stream st = some (st.print.next b rest) := by
      rw [skipBody, fill_line st.print hb h0 hs]
    have hpos := hb.length_pos
    by_cases hnil : b.drop 513 = []
    · have htake : b.take 513 = b := by
        rw [List.take_of_length_le]
        rwa [List.drop_eq_nil_iff] at hnil
      have htest : skipTest (st.print.next b rest) = false := by
        rw [skipTest, Reader.next, htake, tooLongLine_eq_sticks hb hnil, hstick]
      obtain ⟨fuel, hf⟩ := returns_of_not hbody htest
      refine ⟨fuel, _, hf, ?_, rfl, rfl, ?_, [st.cmdBuff], ?_, ?_, rfl⟩
      · rw [Reader.next, hnil, List.nil_append]
      · simp only [Reader.next, Reader.print]
        omega
      · simp [Reader.next, htake]
      · simp [Reader.next, Reader.print]
    · have hlt : (b.drop 513).length < n := by
        rw [List.length_drop]
        omega
      obtain ⟨fuel, st', hskip, hst'⟩ := ih _ hlt (isLine_drop hb hnil)
        (fun hmem => h0 (List.mem_of_mem_drop hmem)) ((sticks_drop hnil).trans hstick)
        (rfl : (st.print.next b rest).source = _) rfl
      obtain ⟨fuel', hf⟩ := returns_of_test hbody
        (tooLongLine_take hb hnil : skipTest (st.print.next b rest) = true) ⟨fuel, hskip⟩
      obtain ⟨chunks, hflat, hechoed, hout⟩ := hst'.out
      refine ⟨fuel', st', hf, hst'.source, hst'.ended, hst'.handed, ?_, st.cmdBuff :: chunks, ?_,
        ?_, ?_⟩
      · have hcalls := hst'.calls
        simp only [Reader.next, Reader.print, List.length_drop] at hcalls
        omega
      · rw [List.flatten_cons, List.append_assoc, hflat]
        simp [Reader.next]
      · rw [hechoed]
        simp [Reader.next, Reader.print]
      · rw [hout]
        simp [Reader.next, Reader.print]

/-- While the loop skips a last line that sticks : what is left of the line has no newline and
fills the buffer some number of times, and so does what is in the buffer. -/
structure Sticking (st : Reader (List Char)) : Prop where
  nul : '\x00' ∉ st.source
  newline : '\n' ∉ st.source
  length : st.source.length % 513 = 0
  full : skipTest st = true

/-- Such a line is skipped for ever. -/
theorem skipLine_sticks (h : Sticking st) (fuel : ℕ) : skipLine stream fuel st = none := by
  have hbody : ∀ st st', Sticking st → skipBody stream st = some st' →
      skipTest st' = true ∧ Sticking st' := by
    intro st st' h hs
    obtain rfl := Option.some.inj hs
    by_cases hnil : st.source = []
    · have hfill : (st.print.fill stream).2 = { st.print with calls := st.calls + 1 } := by
        simp [Reader.fill, Reader.print, hnil, stream, fgets]
      rw [hfill]
      exact ⟨h.full, h.nul, h.newline, h.length, h.full⟩
    · have hline : IsLine st.source [] := Or.inr ⟨h.newline, hnil, rfl⟩
      rw [fill_line st.print hline h.nul (List.append_nil st.source).symm]
      have hpos := hline.length_pos
      have hmod := h.length
      have hfull : skipTest (st.print.next st.source []) = true := by
        rw [skipTest, tooLongLine_iff]
        refine ⟨?_, fun hlast => ?_⟩
        · simp only [Reader.next, List.length_take]
          omega
        · exact h.newline (List.mem_of_mem_take (List.mem_of_getLast? hlast))
      refine ⟨hfull, ?_, ?_, ?_, hfull⟩
      · simpa [Reader.next] using fun hmem => h.nul (List.mem_of_mem_drop hmem)
      · simpa [Reader.next] using fun hmem => h.newline (List.mem_of_mem_drop hmem)
      · simp only [Reader.next, List.append_nil, List.length_drop]
        omega
  cases hf : skipLine stream fuel st with
  | none => rfl
  | some st' => exact absurd ⟨fuel, hf⟩ (not_returns hbody h)

/-! ## Reading a line -/

theorem readPass_mono {σ : Type} {input : Input σ} (interactive : Bool) :
    Mono (readPass input interactive) := by
  intro n m st st' hnm h
  rw [readPass] at h ⊢
  rcases hfill : Reader.fill input { st with out := st.out ++ prompt interactive } with
    ⟨pinput, st₁⟩
  rw [hfill] at h
  cases pinput with
  | false => exact h
  | true =>
    cases hbody : mainBody st₁.cmdBuff with
    | none =>
      simp only [Bool.not_true, Bool.false_eq_true, if_false, hbody] at h ⊢
      obtain ⟨st₂, hskip, rfl⟩ := Option.map_eq_some_iff.1 h
      exact Option.map_eq_some_iff.2 ⟨st₂, exec_mono hskip hnm, rfl⟩
    | some effects =>
      simp only [Bool.not_true, Bool.false_eq_true, if_false, hbody] at h ⊢
      exact h

/-- What a pass does with a line. -/
structure LineRead (interactive : Bool) (b rest : List Char) (st st' : Reader (List Char)) :
    Prop where
  source : st'.source = rest
  ended : st'.ended = if exits b then some .exitCommand else none
  handed : st'.handed = st.handed ++ if fits b then [b] else []
  calls : st'.calls ≤ st.calls + b.length
  echoed : ∃ e : CStr, e.Sublist b ∧ st'.echoed = st.echoed ++ e
  out : ∃ effects, LineEffects b effects ∧ st'.out = st.out ++ (prompt interactive ++ effects)

/-- A line that fits. -/
theorem readPass_fits (hb : IsLine b rest) (h0 : '\x00' ∉ b) (hstick : sticks b = false)
    (hnil : b.drop 513 = []) (hs : st.source = b ++ rest) :
    ∃ st', readPass stream interactive 0 st = some st' ∧
      LineRead interactive b rest st st' := by
  have hlen : b.length ≤ 513 := by rwa [List.drop_eq_nil_iff] at hnil
  have htake : b.take 513 = b := List.take_of_length_le hlen
  have hlong : tooLongLine b = false := (tooLongLine_eq_sticks hb hnil).trans hstick
  have hfits : fits b = true := fits_iff.2 ⟨hlen, hlong⟩
  obtain ⟨effects, hbody⟩ : ∃ effects, mainBody b = some effects := by
    rw [← Option.ne_none_iff_exists', ne_eq, mainBody_eq_none, hlong]
    exact Bool.false_ne_true
  have hfill := fill_line { st with out := st.out ++ prompt interactive } hb h0 hs
  have hpos := hb.length_pos
  rw [readPass, hfill]
  simp only [Reader.next, htake, hbody, Bool.not_true, Bool.false_eq_true, if_false, Reader.handOn]
  refine ⟨_, rfl, ?_, ?_, ?_, ?_, ?_, effects, ?_, ?_⟩
  · simp only [stream, hnil, List.nil_append]
  · rw [exits_eq_any hfits hbody]
  · rw [if_pos hfits]
  · simp only
    omega
  · refine ⟨_, ?_, rfl⟩
    split_ifs
    · exact List.nil_sublist b
    · exact List.Sublist.refl b
  · rw [LineEffects, if_pos hfits, hbody]
  · simp only [List.append_assoc]

/-- A line that is too long. -/
theorem readPass_long (hb : IsLine b rest) (h0 : '\x00' ∉ b) (hstick : sticks b = false)
    (hnil : b.drop 513 ≠ []) (hs : st.source = b ++ rest) (hended : st.ended = none) :
    ∃ fuel st', readPass stream interactive fuel st = some st' ∧
      LineRead interactive b rest st st' := by
  have hlen := length_of_drop_ne_nil hnil
  have hfits : fits b = false := by
    rw [fits, decide_eq_false_iff_not]
    omega
  have hbody : mainBody (b.take 513) = none := mainBody_eq_none.2 (tooLongLine_take hb hnil)
  have hfill := fill_line { st with out := st.out ++ prompt interactive } hb h0 hs
  obtain ⟨fuel, st₁, hskip, hst₁⟩ := skipLine_ends (isLine_drop hb hnil)
    (fun hmem => h0 (List.mem_of_mem_drop hmem)) ((sticks_drop hnil).trans hstick)
    (rfl : (Reader.next { st with out := st.out ++ prompt interactive } b rest).source = _)
  obtain ⟨chunks, hflat, hechoed, hout⟩ := hst₁.out
  have hprinted : chunks.flatten ++ st₁.cmdBuff = b := by
    rw [hflat, Reader.next, List.take_append_drop]
  refine ⟨fuel, st₁.endSkip, ?_, ?_, ?_, ?_, ?_, ⟨b, List.Sublist.refl b, ?_⟩,
    chunks.map .myPrint ++ [.myPrint st₁.cmdBuff] ++ [error], ?_, ?_⟩
  · rw [readPass, hfill]
    simp only [Reader.next, hbody, Bool.not_true, Bool.false_eq_true, if_false]
    rw [Option.map_eq_some_iff]
    exact ⟨st₁, hskip, rfl⟩
  · exact hst₁.source
  · rw [exits, hfits, Bool.false_and, if_neg Bool.false_ne_true]
    exact hst₁.ended.trans hended
  · rw [hfits, if_neg Bool.false_ne_true, List.append_nil]
    exact hst₁.handed
  · have hcalls := hst₁.calls
    simp only [Reader.next, List.length_drop] at hcalls
    simp only [Reader.endSkip, Reader.print]
    omega
  · rw [Reader.endSkip, Reader.print, hechoed, List.append_assoc, hprinted, Reader.next]
  · rw [LineEffects, hfits, if_neg Bool.false_ne_true]
    exact ⟨chunks ++ [st₁.cmdBuff], by simpa using hprinted, by simp⟩
  · rw [Reader.endSkip, Reader.print, hout, Reader.next]
    simp only [List.append_assoc]

theorem readPass_line (interactive : Bool) (hb : IsLine b rest) (h0 : '\x00' ∉ b)
    (hstick : sticks b = false) (hs : st.source = b ++ rest) (hended : st.ended = none) :
    ∃ fuel st', readPass stream interactive fuel st = some st' ∧
      LineRead interactive b rest st st' := by
  by_cases hnil : b.drop 513 = []
  · exact ⟨0, readPass_fits hb h0 hstick hnil hs⟩
  · exact readPass_long hb h0 hstick hnil hs hended

/-- A pass gets stuck on a last line that sticks. -/
theorem readPass_sticks (hb : IsLine b []) (h0 : '\x00' ∉ b) (hstick : sticks b = true)
    (hs : st.source = b) (fuel : ℕ) : readPass stream interactive fuel st = none := by
  have hfill := fill_line { st with out := st.out ++ prompt interactive } hb h0
    (hs.trans (List.append_nil b).symm)
  obtain ⟨hlast, hmod⟩ : b.getLast? ≠ some '\n' ∧ b.length % 513 = 0 := by
    simpa [sticks] using hstick
  have hnew : '\n' ∉ b := by
    rcases hb with ⟨t, -, rfl⟩ | ⟨hb, -⟩
    · simp at hlast
    · exact hb
  have hpos := hb.length_pos
  have hfull : tooLongLine (b.take 513) = true := by
    rw [tooLongLine_iff, List.length_take]
    exact ⟨by omega, fun h => hnew (List.mem_of_mem_take (List.mem_of_getLast? h))⟩
  have hsticking : Sticking (Reader.next { st with out := st.out ++ prompt interactive } b []) := by
    refine ⟨?_, ?_, ?_, hfull⟩
    · simpa [Reader.next] using fun hmem => h0 (List.mem_of_mem_drop hmem)
    · simpa [Reader.next] using fun hmem => hnew (List.mem_of_mem_drop hmem)
    · simp only [Reader.next, List.append_nil, List.length_drop]
      omega
  rw [readPass, hfill]
  simp only [Bool.not_true, Bool.false_eq_true, if_false]
  rw [show (Reader.next { st with out := st.out ++ prompt interactive } b []).cmdBuff =
    b.take 513 from rfl, mainBody_eq_none.2 hfull]
  simp only [skipLine_sticks hsticking, Option.map_none]

/-- The pass at the end of the input. -/
theorem readPass_nil (hs : st.source = []) : readPass stream interactive 0 st =
    some { st with
      calls := st.calls + 1, out := st.out ++ prompt interactive, ended := some .endOfFile } := by
  rw [readPass, Reader.fill, hs]
  rfl

/-! ## Reading the input -/

/-- What the loop does with the lines it reads. -/
structure LinesRead {σ : Type} (interactive : Bool) (bs : List CStr) (st st' : Reader σ) :
    Prop where
  ended : st'.ended = some (if bs.any exits then .exitCommand else .endOfFile)
  handed : st'.handed = st.handed ++ bs.filter fits
  calls : st'.calls ≤ st.calls + bs.flatten.length + 1
  echoed : ∃ e : CStr, e.Sublist bs.flatten ∧ st'.echoed = st.echoed ++ e
  out : ∃ outs, List.Forall₂ LineEffects bs outs ∧ st'.out = st.out ++
    (outs.flatMap (prompt interactive ++ ·) ++ if bs.any exits then [] else prompt interactive)

theorem filter_cons_eq_append {α : Type*} (p : α → Bool) (x : α) (xs : List α) :
    (x :: xs).filter p = (if p x then [x] else []) ++ xs.filter p := by
  rw [List.filter_cons]
  split_ifs <;> rfl

theorem LineRead.ended_eq_none (h : LineRead interactive b rest st st') (hb : exits b = false) :
    st'.ended = none := by
  rw [h.ended, hb, if_neg Bool.false_ne_true]

/-- The pass that reads the next line, unless that sticks. -/
theorem readPass_cons (interactive : Bool) (h0 : '\x00' ∉ st.source) (hended : st.ended = none)
    (hls : lines st.source = b :: bs) (hstick : sticks b = false) :
    ∃ rest fuel st', readPass stream interactive fuel st = some st' ∧
      LineRead interactive b rest st st' ∧ lines st'.source = bs ∧ '\x00' ∉ st'.source := by
  obtain ⟨rest, hs, hline, hrest⟩ := lines_eq_cons hls
  rw [hs] at h0
  obtain ⟨fuel, st', hpass, hread⟩ := readPass_line interactive hline
    (fun hmem => h0 (List.mem_append_left rest hmem)) hstick hs hended
  refine ⟨rest, fuel, st', hpass, hread, ?_, ?_⟩
  · rw [hread.source, hrest]
  · rw [hread.source]
    exact fun hmem => h0 (List.mem_append_right b hmem)

/-- There is none if the next line sticks. -/
theorem readPass_cons_sticks (h0 : '\x00' ∉ st.source) (hls : lines st.source = b :: bs)
    (hstick : sticks b = true) (fuel : ℕ) : readPass stream interactive fuel st = none := by
  obtain ⟨rest, hs, hline, -⟩ := lines_eq_cons hls
  rcases hline with ⟨t, -, rfl⟩ | ⟨hb, hne, rfl⟩
  · simp [sticks] at hstick
  · rw [List.append_nil] at hs
    exact readPass_sticks (Or.inr ⟨hb, hne, rfl⟩) (hs ▸ h0) hstick hs fuel

/-- The loop ends behind a line that executes `exit`. -/
theorem LineRead.linesRead (h : LineRead interactive b rest st st') (hb : exits b = true) :
    LinesRead interactive [b] st st' := by
  obtain ⟨e, he, hechoed⟩ := h.echoed
  obtain ⟨effects, heffects, hout⟩ := h.out
  have hcalls := h.calls
  refine ⟨?_, ?_, ?_, ⟨e, ?_, hechoed⟩, [effects], ?_, ?_⟩
  · rw [h.ended, if_pos hb, List.any_cons, hb, Bool.true_or, if_pos rfl]
  · rw [h.handed, filter_cons_eq_append, List.filter_nil, List.append_nil]
  · rw [List.flatten_singleton]
    omega
  · rwa [List.flatten_singleton]
  · exact .cons heffects .nil
  · rw [hout, List.any_cons, hb, Bool.true_or, if_pos rfl, List.append_nil, List.flatMap_cons,
      List.flatMap_nil, List.append_nil]

/-- Behind every other line it goes on. -/
theorem LineRead.cons {st'' : Reader (List Char)} (h : LineRead interactive b rest st st')
    (hb : exits b = false) (hbs : LinesRead interactive bs st' st'') :
    LinesRead interactive (b :: bs) st st'' := by
  obtain ⟨e, he, hechoed⟩ := h.echoed
  obtain ⟨e', he', hechoed'⟩ := hbs.echoed
  obtain ⟨effects, heffects, hout⟩ := h.out
  obtain ⟨outs, houts, hout'⟩ := hbs.out
  have hcalls := h.calls
  have hcalls' := hbs.calls
  have hany : (b :: bs).any exits = bs.any exits := by rw [List.any_cons, hb, Bool.false_or]
  refine ⟨?_, ?_, ?_, ⟨e ++ e', ?_, ?_⟩, effects :: outs, ?_, ?_⟩
  · rw [hbs.ended, hany]
  · rw [hbs.handed, h.handed, filter_cons_eq_append, List.append_assoc]
  · rw [List.flatten_cons, List.length_append]
    omega
  · rw [List.flatten_cons]
    exact he.append he'
  · rw [hechoed', hechoed, List.append_assoc]
  · exact .cons heffects houts
  · rw [hout', hout, hany, List.flatMap_cons]
    simp only [List.append_assoc]

/-- Without a line that sticks, the loop ends. -/
theorem ends_lines (h0 : '\x00' ∉ st.source) (hended : st.ended = none)
    (hstick : ∀ b ∈ throughExit (lines st.source), sticks b = false) :
    ∃ st', Ends (readPass stream interactive) (fun st => st.ended.isNone) st st' ∧
      LinesRead interactive (throughExit (lines st.source)) st st' := by
  induction hls : lines st.source generalizing st with
  | nil =>
    have hs : st.source = [] := by rw [← flatten_lines st.source, hls, List.flatten_nil]
    refine ⟨_, (ends_iff_of_body (readPass_mono interactive) (readPass_nil hs)).2 rfl, rfl, ?_,
      ?_, ⟨[], ?_, ?_⟩, [], ?_, rfl⟩
    · rw [throughExit, List.filter_nil, List.append_nil]
    · rw [throughExit, List.flatten_nil, List.length_nil, Nat.add_zero]
    · exact List.nil_sublist _
    · rw [List.append_nil]
    · exact .nil
  | cons b bs ih =>
    rw [hls] at hstick
    have hb : sticks b = false := by
      refine hstick b ?_
      rw [throughExit]
      split_ifs <;> exact List.mem_cons_self
    obtain ⟨rest, fuel, st₁, hpass, hread, hlines, h0'⟩ :=
      readPass_cons interactive h0 hended hls hb
    cases hexits : exits b with
    | true =>
      have hended₁ : st₁.ended = some .exitCommand := by rw [hread.ended, hexits, if_pos rfl]
      rw [throughExit, if_pos hexits]
      exact ⟨st₁, (ends_iff_of_body (readPass_mono interactive) hpass).2 (by simp [hended₁]),
        hread.linesRead hexits⟩
    | false =>
      have hended₁ := hread.ended_eq_none hexits
      have hthrough : throughExit (b :: bs) = b :: throughExit bs := by
        rw [throughExit, hexits, if_neg Bool.false_ne_true]
      rw [hthrough] at hstick ⊢
      have hstick₁ : ∀ x ∈ throughExit (lines st₁.source), sticks x = false := by
        rw [hlines]
        exact fun x hx => hstick x (List.mem_cons_of_mem b hx)
      obtain ⟨st', hends, hst'⟩ := ih h0' hended₁ hstick₁ hlines
      exact ⟨st', (ends_iff_of_body (readPass_mono interactive) hpass).2 (by simp [hended₁, hends]),
        hread.cons hexits hst'⟩

/-- It does not end if it gets to a line that sticks. -/
theorem not_ends_of_sticks (h0 : '\x00' ∉ st.source) (hended : st.ended = none)
    (hb : b ∈ throughExit (lines st.source)) (hstick : sticks b = true) :
    ¬Ends (readPass stream interactive) (fun st => st.ended.isNone) st st' := by
  induction hls : lines st.source generalizing st with
  | nil =>
    rw [hls] at hb
    exact absurd hb List.not_mem_nil
  | cons b' bs ih =>
    rw [hls] at hb
    cases hstick' : sticks b' with
    | true =>
      rw [ends_iff (readPass_mono interactive)]
      rintro ⟨fuel, st₁, hpass, -⟩
      rw [readPass_cons_sticks h0 hls hstick'] at hpass
      cases hpass
    | false =>
      obtain ⟨rest, fuel, st₁, hpass, hread, hlines, h0'⟩ :=
        readPass_cons interactive h0 hended hls hstick'
      have hne : b ≠ b' := fun he => by
        rw [he, hstick'] at hstick
        cases hstick
      rw [ends_iff_of_body (readPass_mono interactive) hpass]
      cases hexits : exits b' with
      | true =>
        rw [throughExit, if_pos hexits, List.mem_singleton] at hb
        exact absurd hb hne
      | false =>
        rw [throughExit, hexits, if_neg Bool.false_ne_true] at hb
        have hended₁ := hread.ended_eq_none hexits
        have hmem : b ∈ throughExit (lines st₁.source) := by
          rw [hlines]
          exact List.mem_of_ne_of_mem hne hb
        simpa [hended₁] using ih h0' hended₁ hmem hlines

/-! ## The lines up to the first that executes `exit` -/

variable {ls : List CStr} {source : List Char}

theorem throughExit_isPrefix (ls : List CStr) : throughExit ls <+: ls := by
  induction ls with
  | nil => exact List.prefix_rfl
  | cons b bs ih =>
    rw [throughExit]
    split_ifs
    · exact ⟨bs, rfl⟩
    · exact List.prefix_cons_inj b |>.2 ih

theorem throughExit_eq_self (h : ls.any exits = false) : throughExit ls = ls := by
  induction ls with
  | nil => rfl
  | cons b bs ih =>
    obtain ⟨hb, hbs⟩ := Bool.or_eq_false_iff.1 (List.any_cons ▸ h)
    rw [throughExit, hb, if_neg Bool.false_ne_true, ih hbs]

@[simp] theorem any_throughExit (ls : List CStr) : (throughExit ls).any exits = ls.any exits := by
  induction ls with
  | nil => rfl
  | cons b bs ih =>
    rw [throughExit]
    split_ifs with hb
    · rw [List.any_cons, List.any_cons, hb, Bool.true_or, Bool.true_or]
    · rw [List.any_cons, List.any_cons, ih]

/-- `fgets` is called at most once for each character of the input, and once more at its end,
and no character is printed twice. -/
theorem LinesRead.bounds {σ : Type} {src : σ} {st' : Reader σ}
    (h : LinesRead interactive (throughExit (lines source)) (.init src) st') :
    st'.calls ≤ source.length + 1 ∧ st'.echoed.Sublist source := by
  obtain ⟨t, ht⟩ := throughExit_isPrefix (lines source)
  have hsource : source = (throughExit (lines source)).flatten ++ t.flatten := by
    rw [← List.flatten_append, ht, flatten_lines]
  obtain ⟨e, he, hechoed⟩ := h.echoed
  have hcalls : st'.calls ≤ 0 + (throughExit (lines source)).flatten.length + 1 := h.calls
  have hlen := congrArg List.length hsource
  rw [List.length_append] at hlen
  refine ⟨by omega, ?_⟩
  have hechoed' : st'.echoed = e := hechoed
  rw [hechoed', hsource]
  exact he.trans (List.sublist_append_left _ _)

theorem exists_mainLoop (interactive : Bool) (h0 : '\x00' ∉ source)
    (hstick : ∀ b ∈ throughExit (lines source), sticks b = false) :
    ∃ st, mainLoop stream interactive source st ∧
      LinesRead interactive (throughExit (lines source)) (.init source) st := by
  have h0' : '\x00' ∉ (Reader.init source).source := h0
  exact ends_lines h0' rfl hstick

theorem linesRead_of_mainLoop (h0 : '\x00' ∉ source) (h : mainLoop stream interactive source st') :
    (∀ b ∈ throughExit (lines source), sticks b = false) ∧
      LinesRead interactive (throughExit (lines source)) (.init source) st' := by
  have hstick : ∀ b ∈ throughExit (lines source), sticks b = false := by
    intro b hb
    by_contra hb'
    have h0' : '\x00' ∉ (Reader.init source).source := h0
    exact not_ends_of_sticks h0' rfl hb (eq_true_of_ne_false hb') h
  obtain ⟨st₁, hends, hread⟩ := exists_mainLoop interactive h0 hstick
  have heq : st' = st₁ := Ends.unique (readPass_mono interactive) h hends
  exact ⟨hstick, heq ▸ hread⟩

theorem fits_newline (hb : b.getLast? = some '\n') : fits b = decide (b.dropLast.length ≤ 512) := by
  obtain ⟨t, rfl⟩ := List.getLast?_eq_some_iff.1 hb
  have hlong : tooLongLine (t ++ ['\n']) = false := by
    rw [← Bool.not_eq_true, tooLongLine_iff, hb]
    simp
  rw [fits, hlong, List.dropLast_concat, List.length_append, List.length_singleton]
  rw [decide_eq_decide, eq_self_iff_true, and_true]
  omega

end Shell

end ClassProjects
