import ClassProjects.Lib.Tokens
import Mathlib.Data.List.Forall2

/-!
# Scanning a buffer in place

A text in a buffer is what stands from a position up to the next terminator `z`. `token`
reads the next token of a text as `strtok_r` does : it writes `z` over the delimiter behind
the token, so that the token is a text of its own, and goes on behind that. `scan` reads all
tokens, and calls `f` on each before it reads the next. Both go wrong (`none`) where they
would read beyond the end of the buffer.

`Parses f read spec` says that `f` changes only characters of the text it is called on, to
`z`, and that what it returns can be read from then on, whatever is around the text. A scan
that calls such an `f` is one itself (`Parses.scan`), so a scan is not disturbed by those
nested in it, however deep they are.
-/

namespace Scan

variable {α β γ : Type*}

/-- Some characters have been overwritten by `z`. -/
def Cut (z : α) : List α → List α → Prop :=
  List.Forall₂ fun c c' => c' = c ∨ c' = z

/-- Called on a text, `f` cuts it and returns what reads as `spec` of the text from then on. -/
def Parses (z : α) (f : List α → ℕ → Option (β × List α)) (read : List α → β → γ)
    (spec : List α → γ) : Prop :=
  ∀ pre s post, z ∉ s → ∃ x s', f (pre ++ (s ++ z :: post)) pre.length =
    some (x, pre ++ (s' ++ z :: post)) ∧ Cut z s s' ∧
    ∀ pre' post' : List α, pre'.length = pre.length → read (pre' ++ (s' ++ z :: post')) x = spec s

variable {z c : α} {p q : α → Bool} {s s' t t' d : List α}
  {f : List α → ℕ → Option (β × List α)} {add : β → List β → List β}
  {read : List α → β → γ} {spec : List α → γ}

theorem Cut.refl (z : α) (s : List α) : Cut z s s :=
  List.forall₂_same.2 fun _ _ => Or.inl rfl

theorem Cut.append (hs : Cut z s s') (ht : Cut z t t') : Cut z (s ++ t) (s' ++ t') :=
  List.rel_append hs ht

theorem takeWhile_append_cons (hd : ∀ x ∈ d, q x = true) (hc : q c = false) (r : List α) :
    (d ++ c :: r).takeWhile q = d := by
  rw [List.takeWhile_append_of_pos hd, List.takeWhile_cons_of_neg (by simp [hc]), List.append_nil]

/-- Behind a token there is a terminator, whatever has been cut of the rest. -/
theorem exists_eq_cons {e rest rest' : List α} (he : e = [z] ∨ e = [] ∧ rest = [])
    (hrest : Cut z rest rest') (post : List α) : ∃ r, e ++ (rest' ++ z :: post) = z :: r := by
  rcases he with rfl | ⟨rfl, rfl⟩
  · exact ⟨_, rfl⟩
  · obtain rfl := List.forall₂_nil_left_iff.1 hrest
    exact ⟨post, rfl⟩

/-! ## Tokens in a buffer -/

variable [DecidableEq α]

/-- The text at a position. -/
def text (z : α) (buf : List α) (s : ℕ) : List α :=
  (buf.drop s).takeWhile (· ≠ z)

/-- The next token of the text at `s`, where the scan goes on, and the buffer. -/
def token (z : α) (p : α → Bool) (buf : List α) (s : ℕ) : Option (Option ℕ × ℕ × List α) :=
  let s := s + ((buf.drop s).takeWhile fun c => p c && c ≠ z).length
  match buf[s]? with
  | none => none
  | some c =>
    if c = z then some (none, s, buf)
    else
      let e := s + ((buf.drop s).takeWhile fun c => !p c && c ≠ z).length
      match buf[e]? with
      | none => none
      | some c => if c = z then some (some s, e, buf) else some (some s, e + 1, buf.set e z)

/-- Read at most `fuel` tokens of the text at `s`, and add what `f` returns for each. -/
def scan (z : α) (p : α → Bool) (f : List α → ℕ → Option (β × List α))
    (add : β → List β → List β) : ℕ → List α → ℕ → List β → Option (List β × List α)
  | 0, _, _, _ => none
  | fuel + 1, buf, s, acc =>
    match token z p buf s with
    | none => none
    | some (none, _, buf) => some (acc, buf)
    | some (some t, ptr, buf) =>
      match f buf t with
      | none => none
      | some (x, buf) => scan z p f add fuel buf ptr (add x acc)

theorem text_append (hs : z ∉ s) (pre post : List α) :
    text z (pre ++ (s ++ z :: post)) pre.length = s := by
  rw [text, List.drop_left]
  refine takeWhile_append_cons (fun x hx => ?_) (by simp) post
  simpa using fun he : x = z => hs (he ▸ hx)

/-! ## The next token -/

/-- There is no token in a text of delimiters. -/
theorem token_of_forall (hz : z ∉ d) (hd : ∀ x ∈ d, p x = true) (pre post : List α) :
    token z p (pre ++ (d ++ z :: post)) pre.length =
      some (none, pre.length + d.length, pre ++ (d ++ z :: post)) := by
  have hspan : (d ++ z :: post).takeWhile (fun c => p c && c ≠ z) = d := by
    refine takeWhile_append_cons (fun x hx => ?_) (by simp) post
    have hne : x ≠ z := fun he => hz (he ▸ hx)
    simp [hd x hx, hne]
  rw [token, List.drop_left, hspan]
  simp

/-- A token ends at a delimiter, or where the text does. -/
theorem token_of_append (hz : z ∉ d ++ t) (hd : ∀ x ∈ d, p x = true) (hne : t ≠ [])
    (ht : ∀ x ∈ t, p x = false) (hc : c = z ∨ p c = true) (pre r : List α) :
    token z p (pre ++ (d ++ (t ++ c :: r))) pre.length =
      some (some (pre.length + d.length),
        pre.length + d.length + t.length + (if c = z then 0 else 1),
        pre ++ (d ++ (t ++ z :: r))) := by
  obtain ⟨x, t, rfl⟩ := List.exists_cons_of_ne_nil hne
  have hnez : ∀ y ∈ d ++ x :: t, y ≠ z := fun y hy he => hz (he ▸ hy)
  have hspan : (d ++ (x :: t ++ c :: r)).takeWhile (fun c => p c && c ≠ z) = d := by
    rw [List.cons_append]
    refine takeWhile_append_cons (fun y hy => ?_) ?_ _
    · simp [hd y hy, hnez y (List.mem_append_left _ hy)]
    · simp [ht x List.mem_cons_self]
  have hcspan : (x :: t ++ c :: r).takeWhile (fun c => !p c && c ≠ z) = x :: t := by
    refine takeWhile_append_cons (fun y hy => ?_) ?_ r
    · simp [ht y hy, hnez y (List.mem_append_right d hy)]
    · rcases hc with rfl | hc
      · simp
      · simp [hc]
  have hdrop : (pre ++ (d ++ (x :: t ++ c :: r))).drop (pre.length + d.length) =
      x :: t ++ c :: r := by
    rw [← List.append_assoc, ← List.length_append, List.drop_left]
  have hx : (pre ++ (d ++ (x :: t ++ c :: r)))[pre.length + d.length]? = some x := by
    rw [← List.append_assoc, ← List.length_append, List.getElem?_append_right le_rfl,
      Nat.sub_self]
    rfl
  have hend : pre ++ (d ++ (x :: t ++ c :: r)) = (pre ++ d ++ x :: t) ++ c :: r := by
    simp only [List.append_assoc]
  have hlen : pre.length + d.length + (x :: t).length = (pre ++ d ++ x :: t).length := by
    simp only [List.length_append]
  have hget : (pre ++ (d ++ (x :: t ++ c :: r)))[pre.length + d.length + (x :: t).length]? =
      some c := by
    rw [hend, hlen, List.getElem?_append_right le_rfl, Nat.sub_self]
    rfl
  rw [token, List.drop_left, hspan]
  simp only [hx, hnez x (List.mem_append_right d List.mem_cons_self), if_false, hdrop, hcspan, hget]
  split_ifs with hcz
  · rw [hcz, Nat.add_zero]
  · rw [hend, hlen, List.set_append_right _ _ le_rfl, Nat.sub_self, List.set_cons_zero]
    simp only [List.append_assoc]

/-- What one call does : there is no token, or the first is cut off, and the scan goes on with
the rest of the text. -/
theorem token_cases (p : α → Bool) (hz : z ∉ s) : (∀ x ∈ s, p x = true) ∨
    ∃ d t e e' rest, s = d ++ (t ++ (e ++ rest)) ∧ t ≠ [] ∧ Cut z e e' ∧
      Tokens.runs p s = t :: Tokens.runs p rest ∧ (e' = [z] ∨ e' = [] ∧ rest = []) ∧
      ∀ pre post, token z p (pre ++ (s ++ z :: post)) pre.length =
        some (some (pre ++ d).length, (pre ++ (d ++ (t ++ e'))).length,
          pre ++ (d ++ (t ++ (e' ++ (rest ++ z :: post))))) := by
  rcases Tokens.runs_cases p s with hdelim | ⟨d, t, hd, hne, ht, ⟨rfl, hruns⟩ |
    ⟨c, rest, hc, rfl, hruns⟩⟩
  · exact Or.inl hdelim
  · -- the text ends behind the token
    refine Or.inr ⟨d, t, [], [], [], by rw [List.append_nil, List.append_nil], hne, .refl z [],
      hruns, Or.inr ⟨rfl, rfl⟩, fun pre post => ?_⟩
    rw [List.append_assoc, token_of_append hz hd hne ht (Or.inl rfl)]
    simp [Nat.add_assoc]
  · have hcz : c ≠ z := fun he => hz (by simp [he])
    have hz' : z ∉ d ++ t := fun h => hz (by
      rw [← List.append_assoc]
      exact List.mem_append_left _ h)
    refine Or.inr ⟨d, t, [c], [z], rest, rfl, hne, .cons (Or.inr rfl) .nil, hruns, Or.inl rfl,
      fun pre post => ?_⟩
    simp only [List.append_assoc, List.cons_append]
    rw [token_of_append hz' hd hne ht (Or.inr hc), if_neg hcz]
    simp [Nat.add_assoc]

/-! ## A scan of all tokens -/

theorem scan_eq (hf : Parses z f read spec) (hadd : ∀ x l, add x l = l ++ [x]) (post : List α)
    (fuel : ℕ) (pre : List α) (acc : List β) (hz : z ∉ s) (hfuel : s.length < fuel) :
    ∃ xs s', scan z p f add fuel (pre ++ (s ++ z :: post)) pre.length acc =
        some (acc ++ xs, pre ++ (s' ++ z :: post)) ∧ Cut z s s' ∧
      ∀ pre' post' : List α, pre'.length = pre.length →
        xs.map (read (pre' ++ (s' ++ z :: post'))) = (Tokens.runs p s).map spec := by
  induction fuel generalizing pre s acc with
  | zero => exact absurd hfuel (Nat.not_lt_zero _)
  | succ fuel ih =>
    rcases token_cases p hz with hdelim | ⟨d, t, e, e', rest, hs, hne, he, hruns, hend, htoken⟩
    · refine ⟨[], s, ?_, .refl z s, fun pre' post' _ => ?_⟩
      · rw [scan, token_of_forall hz hdelim, List.append_nil]
      · rw [Tokens.runs_eq_nil.2 hdelim, List.map_nil, List.map_nil]
    · have hzt : z ∉ t := fun h => hz (by simp [hs, h])
      have hzrest : z ∉ rest := fun h => hz (by simp [hs, h])
      have hlt : rest.length < fuel := by
        have hlen := congrArg List.length hs
        have hpos := List.length_pos_of_ne_nil hne
        simp only [List.length_append] at hlen
        omega
      -- `f` is called on the token, and cuts nothing behind it
      obtain ⟨r, hr⟩ := exists_eq_cons hend (.refl z rest) post
      obtain ⟨x, t', hx, ht, hread⟩ := hf (pre ++ d) t r hzt
      obtain ⟨xs, rest', hxs, hrest, hreads⟩ := ih (pre ++ (d ++ (t' ++ e'))) (add x acc) hzrest hlt
      have hptr : (pre ++ (d ++ (t ++ e'))).length = (pre ++ (d ++ (t' ++ e'))).length := by
        simp only [List.length_append, ht.length_eq]
      refine ⟨x :: xs, d ++ (t' ++ (e' ++ rest')), ?_, ?_, fun pre' post' hpre => ?_⟩
      · have hcall : f (pre ++ (d ++ (t ++ (e' ++ (rest ++ z :: post))))) (pre ++ d).length =
            some (x, pre ++ (d ++ (t' ++ e')) ++ (rest ++ z :: post)) := by
          rw [hr, ← List.append_assoc pre, hx, ← hr]
          simp only [List.append_assoc]
        rw [scan, htoken pre post]
        simp only [hcall]
        rw [hptr, hxs, hadd, List.append_assoc, List.singleton_append]
        simp only [List.append_assoc]
      · rw [hs]
        exact (Cut.refl z d).append (ht.append (he.append hrest))
      · obtain ⟨r', hr'⟩ := exists_eq_cons hend hrest post'
        rw [hruns, List.map_cons, List.map_cons]
        refine congrArg₂ List.cons ?_ ?_
        · have h := hread (pre' ++ d) r' (by simp [hpre])
          rw [← hr'] at h
          simpa only [List.append_assoc] using h
        · have h := hreads (pre' ++ (d ++ (t' ++ e'))) post' (by simp [hpre])
          simpa only [List.append_assoc] using h

/-- A position reads as the text there. -/
theorem parses_text (z : α) :
    Parses z (fun buf s => some (s, buf)) (fun buf s => text z buf s) id := by
  intro pre s post hz
  refine ⟨pre.length, s, rfl, .refl z s, fun pre' post' hpre => ?_⟩
  simp only [← hpre, text_append hz, id]

/-- A scan may be called by another scan. -/
theorem Parses.scan (hf : Parses z f read spec) (hadd : ∀ x l, add x l = l ++ [x])
    (p : α → Bool) :
    Parses z (fun buf s => scan z p f add (buf.length + 1) buf s [])
      (fun buf xs => xs.map (read buf)) (fun s => (Tokens.runs p s).map spec) := by
  intro pre s post hz
  refine scan_eq hf hadd post _ pre [] hz ?_
  simp only [List.length_append, List.length_cons]
  omega

end Scan
