import ClassProjects.Shell.Reader

/-!
# The file that the shell reads

The shell reads its input through a stream. `read` takes a block of the file into the buffer of
the stream, and moves the offset of the file behind it. The offset is shared with the programs
that are started. A child of `call_program` that cannot open the file of its redirection, or
cannot run its program, calls `exit(0)`, which closes its copy of the stream and seeks the
offset back by what is still in the buffer (`Source.childExit`). The shell has these characters
in its own copy, and reads them again when the buffer is used up. Other programs leave the file
alone.

`KeepsOffset` is the condition that no child moves the offset before the shell reads on : a line
for which a child fails is the last, or a block ends with it. It holds of the end of a block
because the offset is always there or at the end of the file (`Aligned`). An input that cannot
seek, such as a terminal or a pipe, does not need it, and how much `read` returns from one makes
no difference.

Then the loop on the file does what it does on the stream of its characters (`mainLoop_source`).
So the shell gets through its input where it does on a stream (`mainLoop_ends_iff`), and hands on
every line that fits (`mainLoop_lines`).
-/

namespace ClassProjects

namespace Shell

open DoWhile Lines

/-- A file, the offset that the processes share, and what the stream has read ahead. -/
structure Source where
  bytes : List Char
  offset : ℕ
  buffered : List Char
  seekable : Bool
deriving DecidableEq

/-- The effect starts a program. -/
def Effect.isCall : Effect → Bool
  | .callProgram .. => true
  | _ => false

/-- A child that is started for a line fails : it calls `exit(0)`. `fails` is whether the one
for an effect of the line does, given the lines handed on so far. -/
def failing (fails : List CStr → ℕ → Bool) (handed : List CStr) (effects : List Effect) : Bool :=
  effects.zipIdx.any fun e => e.1.isCall && fails handed e.2

namespace Source

/-- What is left to read, if nothing moves the offset. -/
def rest (src : Source) : List Char :=
  src.buffered ++ src.bytes.drop src.offset

/-- A file that has just been opened. -/
def opened (bytes : List Char) (seekable : Bool) : Source :=
  ⟨bytes, 0, [], seekable⟩

/-- `exit(0)` in a child. It fails to seek in front of the file. -/
def childExit (src : Source) : Source :=
  { src with
    offset :=
      if src.seekable ∧ src.buffered.length ≤ src.offset then src.offset - src.buffered.length
      else src.offset }

/-- The children of a line, one after the other. -/
def after (fails : List CStr → ℕ → Bool) (handed : List CStr) (effects : List Effect)
    (src : Source) : Source :=
  effects.zipIdx.foldl
    (fun src e => if e.1.isCall && fails handed e.2 then src.childExit else src) src

variable (block : ℕ)

/-- The next character. `none` is the end of the file. -/
def getc (src : Source) : Option (Char × Source) :=
  match src.buffered with
  | c :: s => some (c, { src with buffered := s })
  | [] =>
    match (src.bytes.drop src.offset).take block with
    | [] => none
    | c :: s => some (c, { src with offset := src.offset + (s.length + 1), buffered := s })

/-- At most `n` characters, up to a newline. -/
def gets : ℕ → Source → CStr × Source
  | 0, src => ([], src)
  | n + 1, src =>
    match src.getc block with
    | none => ([], src)
    | some (c, src) => if c = '\n' then ([c], src) else (c :: (gets n src).1, (gets n src).2)

/-- `fgets` on the file. -/
def fgets (n : ℕ) (src : Source) : Option (CStr × Source) :=
  if (src.getc block).isNone then none
  else some (cstr (src.gets block (n - 1)).1, (src.gets block (n - 1)).2)

/-- The file as an input of the shell, with children that fail. -/
def input (fails : List CStr → ℕ → Bool) : Input Source where
  fgets := fgets block
  after := after fails

end Source

/-- No child moves the offset while the shell reads on : a line for which a child fails is the
last of the file, or the last of a block, or executes `exit`. -/
def KeepsOffset (block : ℕ) (fails : List CStr → ℕ → Bool) (source : List Char) : Prop :=
  ∀ pre b post effects, throughExit (lines source) = pre ++ b :: post → fits b = true →
    exits b = false → mainBody b = some effects →
    failing fails ((pre ++ [b]).filter fits) effects = true →
    (pre ++ [b]).flatten.length = source.length ∨ block ∣ (pre ++ [b]).flatten.length

/-- The offset is behind a block or at the end of the file, and what is in the buffer is the
end of a block that has been read from. -/
structure Aligned (block : ℕ) (bytes : List Char) (seekable : Bool) (src : Source) : Prop where
  bytes_eq : src.bytes = bytes
  seekable_eq : src.seekable = seekable
  offset_le : src.offset ≤ bytes.length
  dvd : block ∣ src.offset ∨ src.offset = bytes.length
  base : src.buffered = [] ∨
    ∃ base, block ∣ base ∧ base + src.buffered.length < src.offset ∧ src.offset ≤ base + block

variable {block : ℕ} {bytes : List Char} {seekable interactive : Bool} {src src' : Source}
  {c : Char} {fails : List CStr → ℕ → Bool}

/-! ## Reading through the buffer -/

theorem getc_eq_none (hblock : 0 < block) : src.getc block = none ↔ src.rest = [] := by
  rw [Source.getc, Source.rest]
  cases hbuf : src.buffered with
  | cons c s => simp
  | nil =>
    rw [List.nil_append]
    cases hread : (src.bytes.drop src.offset).take block with
    | nil => simpa [hblock.ne'] using hread
    | cons c s =>
      refine iff_of_false (Option.some_ne_none _) fun hnil => ?_
      rw [hnil, List.take_nil] at hread
      cases hread

theorem rest_of_getc (h : src.getc block = some (c, src')) : src.rest = c :: src'.rest := by
  rw [Source.getc] at h
  cases hbuf : src.buffered with
  | cons d s =>
    rw [hbuf] at h
    obtain ⟨rfl, rfl⟩ := Prod.mk.inj (Option.some.inj h)
    rw [Source.rest, hbuf]
    rfl
  | nil =>
    rw [hbuf] at h
    cases hread : (src.bytes.drop src.offset).take block with
    | nil =>
      rw [hread] at h
      cases h
    | cons d s =>
      rw [hread] at h
      obtain ⟨rfl, rfl⟩ := Prod.mk.inj (Option.some.inj h)
      have hsplit : src.bytes.drop src.offset =
          d :: s ++ (src.bytes.drop src.offset).drop block := by
        rw [← hread, List.take_append_drop]
      have hrest : src.bytes.drop (src.offset + (s.length + 1)) =
          (src.bytes.drop src.offset).drop block := by
        rw [← List.drop_drop]
        conv_lhs => rw [hsplit]
        exact List.drop_left' rfl
      rw [Source.rest, Source.rest, hbuf, List.nil_append, hsplit, hrest, List.cons_append]

theorem Aligned.getc (h : Aligned block bytes seekable src) (hc : src.getc block = some (c, src')) :
    Aligned block bytes seekable src' := by
  rw [Source.getc] at hc
  cases hbuf : src.buffered with
  | cons d s =>
    rw [hbuf] at hc
    obtain ⟨rfl, rfl⟩ := Prod.mk.inj (Option.some.inj hc)
    obtain ⟨base, hdvd, hlt, hle⟩ := h.base.resolve_left (by simp [hbuf])
    rw [hbuf, List.length_cons] at hlt
    refine ⟨h.bytes_eq, h.seekable_eq, h.offset_le, h.dvd, Or.inr ⟨base, hdvd, ?_, hle⟩⟩
    simp only
    omega
  | nil =>
    rw [hbuf] at hc
    cases hread : (src.bytes.drop src.offset).take block with
    | nil =>
      rw [hread] at hc
      cases hc
    | cons d s =>
      rw [hread] at hc
      obtain ⟨rfl, rfl⟩ := Prod.mk.inj (Option.some.inj hc)
      have hlen := congrArg List.length hread
      rw [List.length_take, List.length_drop, h.bytes_eq, List.length_cons] at hlen
      -- `read` is not called at the end of the file
      have hdvd : block ∣ src.offset := h.dvd.resolve_right (by omega)
      refine ⟨h.bytes_eq, h.seekable_eq, by simp only; omega, ?_, Or.inr ⟨src.offset, hdvd, ?_, ?_⟩⟩
      · rcases Nat.le_total block (bytes.length - src.offset) with hle | hle
        · left
          simp only [← hlen, Nat.min_eq_left hle]
          exact Nat.dvd_add_self_right.2 hdvd
        · right
          simp only
          omega
      · simp only
        omega
      · simp only
        omega

/-- `gets` reads a chunk of what is left. -/
theorem gets_eq (hblock : 0 < block) (n : ℕ) (src : Source) :
    ((src.gets block n).1, (src.gets block n).2.rest) = Chunks.chunk (· = '\n') n src.rest := by
  induction n generalizing src with
  | zero => rfl
  | succ n ih =>
    rw [Source.gets]
    cases hc : src.getc block with
    | none =>
      have hrest := (getc_eq_none hblock).1 hc
      simp only [hrest, Chunks.chunk]
    | some r =>
      rw [rest_of_getc hc, Chunks.chunk, ← ih r.2]
      simp only [decide_eq_true_eq]
      split_ifs <;> rfl

theorem Aligned.gets (h : Aligned block bytes seekable src) (n : ℕ) :
    Aligned block bytes seekable (src.gets block n).2 := by
  induction n generalizing src with
  | zero => exact h
  | succ n ih =>
    rw [Source.gets]
    cases hc : src.getc block with
    | none => exact h
    | some r =>
      have hr : Aligned block bytes seekable r.2 := h.getc hc
      simp only
      split_ifs
      · exact hr
      · exact ih hr

/-- `fgets` reads of the file what it reads of the stream. -/
theorem fgets_rest (hblock : 0 < block) (n : ℕ) (src : Source) :
    (src.fgets block n).map (fun r => (r.1, r.2.rest)) = fgets n src.rest := by
  rw [Source.fgets]
  cases hc : src.getc block with
  | none =>
    rw [(getc_eq_none hblock).1 hc, Option.isNone_none, if_pos rfl, Option.map_none, fgets]
  | some r =>
    have hchunk := gets_eq hblock (n - 1) src
    rw [rest_of_getc hc] at hchunk ⊢
    simp only [Option.isNone_some, Bool.false_eq_true, if_false, Option.map_some, fgets, ← hchunk]

theorem Aligned.fgets {buff : CStr} {n : ℕ} (h : Aligned block bytes seekable src)
    (hf : src.fgets block n = some (buff, src')) : Aligned block bytes seekable src' := by
  rw [Source.fgets] at hf
  split_ifs at hf
  obtain ⟨-, rfl⟩ := Prod.mk.inj (Option.some.inj hf)
  exact h.gets (n - 1)

/-! ## The children -/

theorem childExit_eq_self (h : src.seekable = false ∨ src.buffered = []) :
    src.childExit = src := by
  have hoffset : (if src.seekable ∧ src.buffered.length ≤ src.offset
      then src.offset - src.buffered.length else src.offset) = src.offset := by
    rcases h with h | h
    · rw [if_neg (by simp [h])]
    · rw [h, List.length_nil, Nat.sub_zero, ite_self]
  rw [Source.childExit, hoffset]

/-- The children leave the file alone, if none fails or none can move the offset. -/
theorem after_eq_self {handed : List CStr} {effects : List Effect}
    (h : failing fails handed effects = true → src.childExit = src) :
    src.after fails handed effects = src := by
  have hfold : ∀ es : List (Effect × ℕ),
      ((es.any fun e => e.1.isCall && fails handed e.2) = true → src.childExit = src) →
      es.foldl (fun src e => if e.1.isCall && fails handed e.2 then src.childExit else src) src =
        src := by
    intro es
    induction es with
    | nil => exact fun _ => rfl
    | cons e es ih =>
      intro h
      rw [List.any_cons] at h
      rw [List.foldl_cons]
      cases he : e.1.isCall && fails handed e.2 with
      | true =>
        rw [he, Bool.true_or] at h
        rw [if_pos rfl, h rfl]
        exact ih fun _ => h rfl
      | false =>
        rw [he, Bool.false_or] at h
        rw [if_neg Bool.false_ne_true]
        exact ih h
  exact hfold effects.zipIdx h

/-- Nothing is in the buffer exactly at the end of a block, or of the file. -/
theorem Aligned.buffered_eq_nil_iff {n : ℕ} (h : Aligned block bytes seekable src)
    (hn : n + src.rest.length = bytes.length) :
    src.buffered = [] ↔ n = bytes.length ∨ block ∣ n := by
  have hoffset := h.offset_le
  rw [Source.rest, List.length_append, List.length_drop, h.bytes_eq] at hn
  constructor
  · intro hnil
    rw [hnil, List.length_nil] at hn
    obtain rfl : n = src.offset := by omega
    exact h.dvd.symm
  · intro hend
    refine h.base.elim id ?_
    rintro ⟨base, hdvd, hlt, hle⟩
    rcases hend with hend | hend
    · exact List.length_eq_zero_iff.1 (by omega)
    · -- a block that ends behind `base` ends behind all that has been read ahead
      have hnext : base + block ≤ n := by
        obtain ⟨i, rfl⟩ := hdvd
        obtain ⟨j, rfl⟩ := hend
        have hij : block * i < block * j := by omega
        have hsucc : i + 1 ≤ j := Nat.lt_of_mul_lt_mul_left hij
        calc block * i + block = block * (i + 1) := (Nat.mul_succ block i).symm
          _ ≤ block * j := Nat.mul_le_mul_left block hsucc
      exact List.length_eq_zero_iff.1 (by omega)

/-! ## A pass on the file -/

/-- The same state with another input. -/
def Reader.withSource {σ τ : Type} (st : Reader σ) (source : τ) : Reader τ :=
  { st with source := source }

/-- The loop on the file and the one on the stream are in the same state. -/
def Matches (block : ℕ) (bytes : List Char) (seekable : Bool) (st : Reader Source)
    (t : Reader (List Char)) : Prop :=
  Aligned block bytes seekable st.source ∧ t = st.withSource st.source.rest

/-- They are behind a pass, and in the same state if they go on. -/
def Follows (block : ℕ) (bytes : List Char) (seekable : Bool) (st : Reader Source)
    (t : Reader (List Char)) : Prop :=
  t = st.withSource t.source ∧ (t.ended = none → Matches block bytes seekable st t)

variable {st : Reader Source} {t t' : Reader (List Char)}

theorem Matches.print (h : Matches block bytes seekable st t) :
    Matches block bytes seekable st.print t.print := by
  obtain ⟨ha, rfl⟩ := h
  exact ⟨ha, rfl⟩

theorem Matches.fill (hblock : 0 < block) (fails : List CStr → ℕ → Bool)
    (h : Matches block bytes seekable st t) :
    (t.fill stream).1 = (st.fill (Source.input block fails)).1 ∧
      Matches block bytes seekable (st.fill (Source.input block fails)).2 (t.fill stream).2 := by
  obtain ⟨ha, rfl⟩ := h
  have hread := fgets_rest hblock maxCmdline st.source
  rw [Reader.fill, Reader.fill]
  simp only [Source.input, stream, Reader.withSource]
  cases hf : st.source.fgets block maxCmdline with
  | none =>
    rw [hf, Option.map_none] at hread
    rw [← hread]
    exact ⟨rfl, ha, rfl⟩
  | some r =>
    rw [hf, Option.map_some] at hread
    rw [← hread]
    exact ⟨rfl, ha.fgets hf, rfl⟩

theorem skipLine_rel (hblock : 0 < block) (fuel : ℕ) (h : Matches block bytes seekable st t) :
    Option.Rel (Matches block bytes seekable) (skipLine (Source.input block fails) fuel st)
      (skipLine stream fuel t) := by
  refine exec_rel (fun st t h => ?_) (fun st t h => ?_) h fuel
  · exact .some (h.print.fill hblock fails).2
  · obtain ⟨ha, rfl⟩ := h
    exact ⟨rfl, fun _ => ⟨ha, rfl⟩⟩

theorem fgets_of_fill (h : (t.fill stream).1 = true) :
    fgets maxCmdline t.source = some ((t.fill stream).2.cmdBuff, (t.fill stream).2.source) := by
  rw [Reader.fill] at h ⊢
  cases hf : stream.fgets maxCmdline t.source with
  | none =>
    rw [hf] at h
    cases h
  | some r => exact hf

theorem handed_fill {σ : Type} (input : Input σ) (st : Reader σ) :
    (st.fill input).2.handed = st.handed := by
  rw [Reader.fill]
  split <;> rfl

theorem Matches.follows (h : Matches block bytes seekable st t) :
    Follows block bytes seekable st t := by
  refine ⟨?_, fun _ => h⟩
  obtain ⟨-, rfl⟩ := h
  rfl

/-- A line that is handed on. If it executes `exit`, it does not matter where the children move
the offset. -/
theorem Matches.handOn {effects : List Effect} (h : Matches block bytes seekable st t)
    (hexit : (effects.any fun e => e = .exit) = false →
      failing fails (st.handed ++ [st.cmdBuff]) effects = true →
      st.source.childExit = st.source) :
    Follows block bytes seekable (st.handOn (Source.input block fails) effects)
      (t.handOn stream effects) := by
  obtain ⟨ha, rfl⟩ := h
  cases hany : effects.any fun e => e = .exit with
  | true =>
    refine ⟨rfl, fun hended => ?_⟩
    rw [Reader.handOn, hany] at hended
    cases hended
  | false =>
    have hafter : st.source.after fails (st.handed ++ [st.cmdBuff]) effects = st.source :=
      after_eq_self (hexit hany)
    refine Matches.follows ?_
    rw [Reader.handOn, Reader.handOn]
    simp only [Source.input, stream, hafter]
    exact ⟨ha, rfl⟩

/-- A pass does the same on both, unless a child moves the offset and the loop goes on. -/
theorem readPass_rel (hblock : 0 < block) (fuel : ℕ) (h : Matches block bytes seekable st t)
    (hexit : ∀ buff src effects, Aligned block bytes seekable src →
      fgets maxCmdline t.source = some (buff, src.rest) → mainBody buff = some effects →
      (effects.any fun e => e = .exit) = false →
      failing fails (t.handed ++ [buff]) effects = true → src.childExit = src) :
    Option.Rel (Follows block bytes seekable)
      (readPass (Source.input block fails) interactive fuel st)
      (readPass stream interactive fuel t) := by
  have hprompt : Matches block bytes seekable { st with out := st.out ++ prompt interactive }
      { t with out := t.out ++ prompt interactive } := by
    obtain ⟨ha, rfl⟩ := h
    exact ⟨ha, rfl⟩
  obtain ⟨hreturned, hfilled⟩ := hprompt.fill hblock fails
  have hhanded := handed_fill stream { t with out := t.out ++ prompt interactive }
  have hread := @fgets_of_fill { t with out := t.out ++ prompt interactive }
  rw [readPass, readPass]
  generalize Reader.fill (Source.input block fails) _ = r at *
  generalize Reader.fill stream _ = r' at *
  obtain ⟨pinput, st₁⟩ := r
  obtain ⟨pinput', t₁⟩ := r'
  simp only at hreturned hfilled hhanded hread ⊢
  subst hreturned
  cases pinput' with
  | false =>
    obtain ⟨ha, rfl⟩ := hfilled
    exact .some (Matches.follows ⟨ha, rfl⟩)
  | true =>
    have ht₁ : t₁ = st₁.withSource st₁.source.rest := hfilled.2
    have hbuff : t₁.cmdBuff = st₁.cmdBuff := by rw [ht₁, Reader.withSource]
    simp only [Bool.not_true, Bool.false_eq_true, if_false, hbuff]
    cases hbody : mainBody st₁.cmdBuff with
    | none =>
      refine ForLoop.rel_map (skipLine_rel hblock fuel hfilled) fun st₂ t₂ h₂ => ?_
      obtain ⟨ha, rfl⟩ := h₂
      exact Matches.follows ⟨ha, rfl⟩
    | some effects =>
      refine .some (hfilled.handOn fun hany hfail => ?_)
      refine hexit st₁.cmdBuff st₁.source effects hfilled.1 ?_ hbody hany ?_
      · rw [hread rfl, ht₁, Reader.withSource]
      · rwa [← hhanded, ht₁, Reader.withSource]

/-! ## The loop on the file -/

/-- Where the loop is between two passes : it has read the lines `pre`, none of which executes
`exit`. -/
def Between (bytes : List Char) (t : Reader (List Char)) : Prop :=
  t.ended = none ∧ ∃ pre, pre.any exits = false ∧ lines bytes = pre ++ lines t.source ∧
    t.handed = pre.filter fits

theorem throughExit_append_cons {pre : List CStr} (h : pre.any exits = false) (b : CStr)
    (bs : List CStr) :
    ∃ post, throughExit (pre ++ b :: bs) = pre ++ b :: post := by
  induction pre with
  | nil =>
    rw [List.nil_append, throughExit]
    split_ifs
    · exact ⟨[], rfl⟩
    · exact ⟨_, rfl⟩
  | cons a pre ih =>
    obtain ⟨ha, hpre⟩ := Bool.or_eq_false_iff.1 (List.any_cons ▸ h)
    obtain ⟨post, hpost⟩ := ih hpre
    rw [List.cons_append, throughExit, ha, if_neg Bool.false_ne_true, hpost]
    exact ⟨post, rfl⟩

theorem notMem_of_lines {rest : List Char} {pre : List CStr} (h0 : '\x00' ∉ bytes)
    (hls : lines bytes = pre ++ lines rest) : '\x00' ∉ rest := by
  intro hmem
  rw [← flatten_lines bytes, hls, List.flatten_append, flatten_lines] at h0
  exact h0 (List.mem_append_right _ hmem)

/-- No child moves the offset between two passes. -/
theorem childExit_of_keepsOffset (hkeeps : seekable = true → KeepsOffset block fails bytes)
    (h0 : '\x00' ∉ bytes) (hbetween : Between bytes t) {buff : CStr} {effects : List Effect}
    (ha : Aligned block bytes seekable src)
    (hf : fgets maxCmdline t.source = some (buff, src.rest))
    (hbody : mainBody buff = some effects)
    (hany : (effects.any fun e => e = .exit) = false)
    (hfail : failing fails (t.handed ++ [buff]) effects = true) : src.childExit = src := by
  refine childExit_eq_self ?_
  cases hseek : seekable with
  | false => exact Or.inl (ha.seekable_eq.trans hseek)
  | true =>
    right
    obtain ⟨-, pre, hpre, hls, hhanded⟩ := hbetween
    have h0' := notMem_of_lines h0 hls
    cases hlines : lines t.source with
    | nil =>
      rw [← flatten_lines t.source, hlines, List.flatten_nil, fgets] at hf
      cases hf
    | cons b bs =>
      obtain ⟨rest, hs, hline, hrest⟩ := lines_eq_cons hlines
      rw [hs] at hf h0'
      have hlong : tooLongLine buff = false := by
        rw [← Bool.not_eq_true, ← mainBody_eq_none, hbody]
        exact Option.some_ne_none effects
      obtain ⟨rfl, hsrc, hfits⟩ :=
        eq_of_fgets hline (fun hmem => h0' (List.mem_append_left rest hmem)) hf hlong
      have hexits : exits buff = false := (exits_eq_any hfits hbody).trans hany
      rw [hlines] at hls
      have hbytes : bytes = (pre ++ [buff]).flatten ++ src.rest := by
        rw [← flatten_lines bytes, hls, List.append_cons, List.flatten_append, ← hrest,
          flatten_lines, hsrc]
      have hlen := congrArg List.length hbytes
      rw [List.length_append] at hlen
      obtain ⟨post, hpost⟩ := throughExit_append_cons hpre buff bs
      have hfilter : t.handed ++ [buff] = (pre ++ [buff]).filter fits := by
        rw [List.filter_append, hhanded, List.filter_singleton, hfits, cond_true]
      rw [hfilter] at hfail
      exact (ha.buffered_eq_nil_iff hlen.symm).2
        (hkeeps hseek pre buff post effects (hls ▸ hpost) hfits hexits hbody hfail)

/-- A pass reads one line more. -/
theorem Between.pass (h0 : '\x00' ∉ bytes) (hbetween : Between bytes t) {fuel : ℕ}
    (hpass : readPass stream interactive fuel t = some t') (hgo : t'.ended = none) :
    Between bytes t' := by
  obtain ⟨hended, pre, hpre, hls, hhanded⟩ := hbetween
  have h0' := notMem_of_lines h0 hls
  have hunique : ∀ {m : ℕ} {t₁ : Reader (List Char)},
      readPass stream interactive m t = some t₁ → t₁ = t' := by
    intro m t₁ h₁
    have hmax := readPass_mono interactive _ _ _ _ (Nat.le_max_left fuel m) hpass
    rw [readPass_mono interactive _ _ _ _ (Nat.le_max_right fuel m) h₁] at hmax
    exact Option.some.inj hmax
  cases hlines : lines t.source with
  | nil =>
    have hs : t.source = [] := by rw [← flatten_lines t.source, hlines, List.flatten_nil]
    obtain rfl := hunique (readPass_nil hs)
    cases hgo
  | cons b bs =>
    cases hstick : sticks b with
    | true =>
      rw [readPass_cons_sticks h0' hlines hstick] at hpass
      cases hpass
    | false =>
      obtain ⟨rest, m, t₁, hpass₁, hread, hbs, -⟩ :=
        readPass_cons interactive h0' hended hlines hstick
      obtain rfl := hunique hpass₁
      have hexits : exits b = false := by
        by_contra hexits
        rw [hread.ended, if_pos (eq_true_of_ne_false hexits)] at hgo
        cases hgo
      refine ⟨hgo, pre ++ [b], ?_, ?_, ?_⟩
      · rw [List.any_append, hpre, List.any_cons, hexits]
        rfl
      · rw [hls, hlines, hbs, List.append_cons]
      · rw [hread.handed, hhanded, List.filter_append, List.filter_singleton]
        cases fits b <;> rfl

/-- With any fuel the loops follow each other, while no child moves the offset. -/
theorem exec_source_rel (interactive : Bool) (hblock : 0 < block)
    (hkeeps : seekable = true → KeepsOffset block fails bytes) (h0 : '\x00' ∉ bytes) (fuel : ℕ) :
    Option.Rel (fun st t => Follows block bytes seekable st t ∧ (t.ended = none → Between bytes t))
      (exec (readPass (Source.input block fails) interactive fuel) (fun st => st.ended.isNone) fuel
        (.init (.opened bytes seekable)))
      (exec (readPass stream interactive fuel) (fun st => st.ended.isNone) fuel (.init bytes)) := by
  refine exec_rel (R := fun st t => Matches block bytes seekable st t ∧ Between bytes t)
    (fun st t h => ?_) (fun st t h => ?_) ⟨⟨?_, rfl⟩, rfl, [], rfl, rfl, rfl⟩ fuel
  · refine ForLoop.rel_and (readPass_rel hblock fuel h.1 fun _ _ _ ha hf hbody hany hfail =>
      childExit_of_keepsOffset hkeeps h0 h.2 ha hf hbody hany hfail) fun t' hpass hgo => ?_
    exact h.2.pass h0 hpass hgo
  · obtain ⟨⟨hst, hmatch⟩, hgo⟩ := h
    have hended : st.ended = t.ended := by rw [hst, Reader.withSource]
    refine ⟨by rw [hended], fun hnone => ?_⟩
    have ht : t.ended = none := by rwa [hended, Option.isNone_iff_eq_none] at hnone
    exact ⟨hmatch ht, hgo ht⟩
  · exact ⟨rfl, rfl, Nat.zero_le _, Or.inl (Nat.dvd_zero block), Or.inl rfl⟩

/-- While no child moves the offset, the loop on the file ends where the one on the stream of
its characters does, in the same state but for what is left of the input. -/
theorem mainLoop_source (hblock : 0 < block)
    (hkeeps : seekable = true → KeepsOffset block fails bytes) (h0 : '\x00' ∉ bytes) :
    (∀ t, mainLoop stream interactive bytes t →
      ∃ st, mainLoop (Source.input block fails) interactive (.opened bytes seekable) st ∧
        t = st.withSource t.source) ∧
    ∀ st, mainLoop (Source.input block fails) interactive (.opened bytes seekable) st →
      ∃ s, mainLoop stream interactive bytes (st.withSource s) := by
  constructor
  · rintro t ⟨fuel, hf⟩
    have h := exec_source_rel interactive hblock hkeeps h0 fuel
    rw [hf, ForLoop.rel_some_iff] at h
    obtain ⟨st, hst, ⟨heq, -⟩, -⟩ := h
    exact ⟨st, ⟨fuel, hst⟩, heq⟩
  · rintro st ⟨fuel, hf⟩
    have h := exec_source_rel interactive hblock hkeeps h0 fuel
    rw [hf] at h
    cases ht : exec (readPass stream interactive fuel) (fun st => st.ended.isNone) fuel
        (.init bytes) with
    | none =>
      rw [ht] at h
      cases h
    | some t =>
      rw [ht] at h
      cases h with
      | some h =>
        obtain ⟨⟨heq, -⟩, -⟩ := h
        exact ⟨t.source, fuel, heq ▸ ht⟩

/-- What the loop does with the lines does not depend on where they come from. -/
theorem LinesRead.of_withSource {bs : List CStr} {s : List Char}
    (h : LinesRead interactive bs (.init bytes) (st.withSource s)) :
    LinesRead interactive bs (.init (.opened bytes seekable)) st :=
  ⟨h.ended, h.handed, h.calls, h.echoed, h.out⟩

theorem exists_mainLoop_source (interactive : Bool) (hblock : 0 < block)
    (hkeeps : seekable = true → KeepsOffset block fails bytes) (h0 : '\x00' ∉ bytes)
    (hstick : ∀ b ∈ throughExit (lines bytes), sticks b = false) :
    ∃ st, mainLoop (Source.input block fails) interactive (.opened bytes seekable) st ∧
      LinesRead interactive (throughExit (lines bytes)) (.init (.opened bytes seekable)) st := by
  obtain ⟨t, hends, hread⟩ := exists_mainLoop interactive h0 hstick
  obtain ⟨st, hst, heq⟩ := (mainLoop_source hblock hkeeps h0).1 t hends
  rw [heq] at hread
  exact ⟨st, hst, hread.of_withSource⟩

theorem linesRead_of_mainLoop_source (hblock : 0 < block)
    (hkeeps : seekable = true → KeepsOffset block fails bytes) (h0 : '\x00' ∉ bytes)
    (h : mainLoop (Source.input block fails) interactive (.opened bytes seekable) st) :
    (∀ b ∈ throughExit (lines bytes), sticks b = false) ∧
      LinesRead interactive (throughExit (lines bytes)) (.init (.opened bytes seekable)) st := by
  obtain ⟨s, hends⟩ := (mainLoop_source hblock hkeeps h0).2 st h
  obtain ⟨hstick, hread⟩ := linesRead_of_mainLoop h0 hends
  exact ⟨hstick, hread.of_withSource⟩

/-! ## Where the shell ends -/

/-- While no child moves the offset, the shell gets to the end of its input, and prints no
character of it twice, exactly if no line executes `exit` and the last does not stick. It ends
at all exactly if no line that it gets to sticks. -/
theorem mainLoop_ends_iff (interactive seekable : Bool) (block : ℕ)
    (fails : List CStr → ℕ → Bool) (source : List Char) (hblock : 0 < block) (h0 : '\x00' ∉ source)
    (hkeeps : seekable = true → KeepsOffset block fails source) :
    ((∃ st, mainLoop (Source.input block fails) interactive (.opened source seekable) st ∧
        st.ended = some .endOfFile ∧
        st.calls ≤ source.length + 1 ∧ st.echoed.Sublist source) ↔
      ∀ b ∈ lines source, exits b = false ∧ sticks b = false) ∧
    ((∃ st, mainLoop (Source.input block fails) interactive (.opened source seekable) st ∧
        st.calls ≤ source.length + 1 ∧ st.echoed.Sublist source) ↔
      ∀ b ∈ throughExit (lines source), sticks b = false) := by
  constructor <;> constructor
  · rintro ⟨st, h, hended, -⟩
    obtain ⟨hstick, hread⟩ := linesRead_of_mainLoop_source hblock hkeeps h0 h
    have hany : (lines source).any exits = false := by
      by_contra hany
      rw [hread.ended, any_throughExit, if_pos (eq_true_of_ne_false hany)] at hended
      cases hended
    rw [throughExit_eq_self hany] at hstick
    rw [List.any_eq_false] at hany
    exact fun b hb => ⟨eq_false_of_ne_true (hany b hb), hstick b hb⟩
  · intro h
    have hany : (lines source).any exits = false :=
      List.any_eq_false.2 fun b hb => ne_true_of_eq_false (h b hb).1
    obtain ⟨st, hends, hread⟩ := exists_mainLoop_source interactive hblock hkeeps h0
      fun b hb => (h b ((throughExit_isPrefix _).subset hb)).2
    refine ⟨st, hends, ?_, hread.bounds⟩
    rw [hread.ended, any_throughExit, hany, if_neg Bool.false_ne_true]
  · rintro ⟨st, h, -⟩
    exact (linesRead_of_mainLoop_source hblock hkeeps h0 h).1
  · intro h
    obtain ⟨st, hends, hread⟩ := exists_mainLoop_source interactive hblock hkeeps h0 h
    exact ⟨st, hends, hread.bounds⟩

/-- A last line of one character, whose program is not found. Nothing has been read ahead then. -/
theorem mainLoop_ends_ls :
    KeepsOffset 4096 (fun handed _ => handed.getLast? = some "x".toList) "ls\nx".toList ∧
    (∀ b ∈ lines "ls\nx".toList, exits b = false ∧ sticks b = false) ∧
    ∃ st, mainLoop (Source.input 4096 fun handed _ => handed.getLast? = some "x".toList) true
      (.opened "ls\nx".toList true) st ∧ st.ended = some .endOfFile := by
  have hkeeps : KeepsOffset 4096 (fun handed _ => handed.getLast? = some "x".toList)
      "ls\nx".toList := by
    have hthrough : throughExit (lines "ls\nx".toList) = ["ls\n".toList, "x".toList] := rfl
    intro pre b post effects h _ _ hbody hfail
    rw [hthrough] at h
    rcases pre with _ | ⟨a, _ | ⟨a', pre⟩⟩
    · obtain ⟨hb, -⟩ := List.cons.inj h
      rw [List.nil_append, ← hb] at hfail
      rw [← hb] at hbody
      obtain rfl := Option.some.inj hbody
      exact absurd hfail (by decide)
    · obtain ⟨ha, h⟩ := List.cons.inj h
      obtain ⟨hb, -⟩ := List.cons.inj h
      rw [← ha, ← hb]
      exact Or.inl rfl
    · simpa using congrArg List.length h
  have h : ∀ b ∈ lines "ls\nx".toList, exits b = false ∧ sticks b = false := by
    rw [show lines "ls\nx".toList = ["ls\n".toList, "x".toList] from rfl]
    simp only [List.forall_mem_cons]
    exact ⟨⟨rfl, rfl⟩, ⟨rfl, rfl⟩, by simp⟩
  obtain ⟨st, hends, hended, -⟩ := (mainLoop_ends_iff true true 4096 _ "ls\nx".toList (by decide)
    (by decide) fun _ => hkeeps).1.2 h
  exact ⟨hkeeps, h, st, hends, hended⟩

/-- The shell does not end on one line without a newline that fills the buffer. -/
theorem not_mainLoop_of_not_mem (interactive seekable : Bool) (hblock : 0 < block)
    (h0 : '\x00' ∉ bytes) (hnew : '\n' ∉ bytes) (hne : bytes ≠ [])
    (hmod : bytes.length % 513 = 0) :
    ¬∃ st, mainLoop (Source.input block fails) interactive (.opened bytes seekable) st := by
  have hlines : throughExit (lines bytes) = [bytes] := by
    rw [lines_of_not_mem hnew hne, throughExit, throughExit]
    split_ifs <;> rfl
  have hlast : bytes.getLast? ≠ some '\n' := fun h => hnew (List.mem_of_getLast? h)
  have hpos := List.length_pos_of_ne_nil hne
  -- no program is started
  have hkeeps : KeepsOffset block fails bytes := by
    intro pre b post effects h hfits _ _ _
    have hmem : b ∈ throughExit (lines bytes) := by
      rw [h]
      exact List.mem_append_right pre List.mem_cons_self
    rw [hlines, List.mem_singleton] at hmem
    subst hmem
    obtain ⟨hle, hlong⟩ := fits_iff.1 hfits
    rw [tooLongLine_iff.2 ⟨by omega, hlast⟩] at hlong
    cases hlong
  rintro ⟨st, h⟩
  have hstick := (linesRead_of_mainLoop_source hblock (fun _ => hkeeps) h0 h).1 bytes
    (by rw [hlines]; exact List.mem_singleton_self bytes)
  rw [sticks, hmod] at hstick
  simp [hlast] at hstick

/-- The file before each of three lines whose programs are not found. The child of the second
seeks back to the start, and the shell gets there behind the third. -/
def rewound : List Source :=
  [⟨"a\nb\nc\n".toList, 0, [], true⟩, ⟨"a\nb\nc\n".toList, 2, "b\nc\n".toList, true⟩,
    ⟨"a\nb\nc\n".toList, 0, "c\n".toList, true⟩]

theorem readPass_rewound {fuel : ℕ} {st st' : Reader Source} (hs : st.source ∈ rewound)
    (hpass : readPass (Source.input 4096 fun _ _ => true) false fuel st = some st') :
    st'.ended.isNone = true ∧ st'.source ∈ rewound := by
  obtain ⟨source, cmdBuff, calls, handed, echoed, out, ended⟩ := st
  simp only [rewound, List.mem_cons, List.not_mem_nil, or_false] at hs
  rcases hs with rfl | rfl | rfl <;> obtain rfl := Option.some.inj hpass
  · exact ⟨rfl, List.mem_cons_of_mem _ List.mem_cons_self⟩
  · exact ⟨rfl, List.mem_cons_of_mem _ (List.mem_cons_of_mem _ List.mem_cons_self)⟩
  · exact ⟨rfl, List.mem_cons_self⟩

/-- 513 characters without a newline, and three lines whose programs are not found. -/
theorem not_mainLoop_full :
    (¬∃ st, mainLoop (Source.input 4096 fun _ _ => false) true
        (.opened (List.replicate 513 'a') true) st ∧
      st.ended = some .endOfFile ∧ st.calls ≤ (List.replicate 513 'a').length + 1 ∧
      st.echoed.Sublist (List.replicate 513 'a')) ∧
    ¬∃ st, mainLoop (Source.input 4096 fun _ _ => true) false
        (.opened "a\nb\nc\n".toList true) st ∧
      st.ended = some .endOfFile ∧ st.calls ≤ "a\nb\nc\n".toList.length + 1 ∧
      st.echoed.Sublist "a\nb\nc\n".toList := by
  have hmem : ∀ c ∈ List.replicate 513 'a', c = 'a' := fun c => List.eq_of_mem_replicate
  constructor
  · rintro ⟨st, h, -⟩
    refine not_mainLoop_of_not_mem true true (by decide) (fun h => ?_) (fun h => ?_) ?_ ?_ ⟨st, h⟩
    · exact absurd (hmem _ h) (by decide)
    · exact absurd (hmem _ h) (by decide)
    · exact List.ne_nil_of_length_pos (by rw [List.length_replicate]; decide)
    · rw [List.length_replicate]
  · rintro ⟨st, ⟨fuel, hf⟩, -⟩
    exact not_returns (fun _ _ => readPass_rewound) List.mem_cons_self ⟨fuel, hf⟩

/-! ## What is done with the lines -/

/-- While no child moves the offset, and if each line ends with a newline, the lines with at
most 512 characters before it are handed on, up to the first that executes `exit`. Each longer
one is printed as it is, with one error behind it. -/
theorem mainLoop_lines (interactive seekable : Bool) (block : ℕ)
    (fails : List CStr → ℕ → Bool) (source : List Char) (hblock : 0 < block) (h0 : '\x00' ∉ source)
    (hkeeps : seekable = true → KeepsOffset block fails source)
    (hend : ∀ b ∈ lines source, b.getLast? = some '\n') :
    ∃ st outs, mainLoop (Source.input block fails) interactive (.opened source seekable) st ∧
      st.ended = some (if (lines source).any exits then .exitCommand else .endOfFile) ∧
      st.handed = (throughExit (lines source)).filter (fun b => b.dropLast.length ≤ 512) ∧
      List.Forall₂
        (fun b effects =>
          if b.dropLast.length ≤ 512 then mainBody b = some effects
          else ∃ chunks : List CStr,
            chunks.flatten = b ∧ effects = chunks.map .myPrint ++ [error])
        (throughExit (lines source)) outs ∧
      st.out = outs.flatMap (prompt interactive ++ ·) ++
        if (lines source).any exits then [] else prompt interactive := by
  have hmem : ∀ b ∈ throughExit (lines source), b.getLast? = some '\n' :=
    fun b hb => hend b ((throughExit_isPrefix _).subset hb)
  have hstick : ∀ b ∈ throughExit (lines source), sticks b = false := by
    intro b hb
    simp [sticks, hmem b hb]
  obtain ⟨st, hends, hread⟩ := exists_mainLoop_source interactive hblock hkeeps h0 hstick
  obtain ⟨outs, houts, hout⟩ := hread.out
  refine ⟨st, outs, hends, ?_, ?_, ?_, ?_⟩
  · rw [hread.ended, any_throughExit]
  · rw [hread.handed]
    exact List.filter_congr fun b hb => fits_newline (hmem b hb)
  · refine ((List.forall₂_and_left _ outs).2 ⟨hmem, houts⟩).imp fun b effects h => ?_
    have hb := h.2
    rw [LineEffects, fits_newline h.1] at hb
    simpa only [decide_eq_true_eq] using hb
  · rw [hout, any_throughExit]
    rfl

/-- Behind `exit` nothing is read, and on a terminal no child can move the offset. -/
theorem mainLoop_lines_exit : (∀ b ∈ lines "ls\nexit\npwd\n".toList, b.getLast? = some '\n') ∧
    ∃ st, mainLoop (Source.input 1024 fun _ _ => true) true
        (.opened "ls\nexit\npwd\n".toList false) st ∧
      st.ended = some .exitCommand ∧ st.handed = ["ls\n".toList, "exit\n".toList] := by
  have hend : ∀ b ∈ lines "ls\nexit\npwd\n".toList, b.getLast? = some '\n' := by
    rw [show lines "ls\nexit\npwd\n".toList =
      ["ls\n".toList, "exit\n".toList, "pwd\n".toList] from rfl]
    simp only [List.forall_mem_cons]
    exact ⟨rfl, rfl, rfl, by simp⟩
  obtain ⟨st, outs, h, hended, hhanded, -⟩ := mainLoop_lines true false 1024 (fun _ _ => true)
    "ls\nexit\npwd\n".toList (by decide) (by decide) (fun hseek => absurd hseek (by decide)) hend
  exact ⟨hend, st, h, hended, hhanded⟩

/-- The lines that a run hands on are those that it hands on with enough fuel. -/
theorem handed_of_exec {σ : Type} {input : Input σ} {source : σ} {st : Reader σ} (fuel : ℕ)
    (handed : List CStr)
    (hrun : (exec (readPass input interactive fuel) (fun st => st.ended.isNone) fuel
      (.init source)).map Reader.handed = some handed)
    (h : mainLoop input interactive source st) : st.handed = handed := by
  obtain ⟨st₁, hst₁, hhanded⟩ := Option.map_eq_some_iff.1 hrun
  rw [Ends.unique (readPass_mono interactive) h ⟨fuel, hst₁⟩, hhanded]

/-- A line behind `exit` is not handed on, and one behind a line whose program is not found is
handed on twice. -/
theorem not_mainLoop_handed :
    (¬∃ st, mainLoop (Source.input 4096 fun _ _ => false) true (.opened "exit\nls\n".toList true)
        st ∧
      st.handed = (lines "exit\nls\n".toList).filter fun b => b.dropLast.length ≤ 512) ∧
    ¬∃ st, mainLoop (Source.input 4096 fun _ _ => true) true (.opened "nosuch\npwd\n".toList true)
        st ∧
      st.handed = (lines "nosuch\npwd\n".toList).filter fun b => b.dropLast.length ≤ 512 := by
  constructor
  · rintro ⟨st, h, hhanded⟩
    rw [handed_of_exec 1 ["exit\n".toList] (by decide) h] at hhanded
    exact absurd hhanded (by decide)
  · rintro ⟨st, h, hhanded⟩
    rw [handed_of_exec 4 ["nosuch\n".toList, "pwd\n".toList, "pwd\n".toList] (by decide) h]
      at hhanded
    exact absurd hhanded (by decide)

end Shell

end ClassProjects
