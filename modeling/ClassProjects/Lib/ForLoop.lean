import Mathlib.Data.List.Basic
import Mathlib.Tactic.Common

/-!
# Counted loops

`exec body n i s` is `for (j = i; j < i + n; j++) body`, and `search` the loop that returns the
first `j` that passes a test. A body or a test may go wrong (`none`), and then the loop does.

An invariant of the counter that the body keeps holds behind the loop (`exec_spec`). A loop that
goes through an array is a function on the list of its entries : `search` is `findIdx?`, and
updating every entry is `mapM` (`exec_mapM`). There both may go wrong : two computations agree up
to a relation if they go wrong together (`Option.Rel`), and then what is computed from their
results agrees too (`rel_bind`).
-/

namespace ForLoop

variable {σ τ α : Type*}

/-- Run the loop for `n` iterations, from `i` on. -/
def exec (body : ℕ → σ → Option σ) : ℕ → ℕ → σ → Option σ
  | 0, _, s => some s
  | n + 1, i, s => (body i s).bind fun s => exec body n (i + 1) s

/-- The first `j` of `n` from `i` on that passes the test. -/
def search (test : ℕ → Option Bool) : ℕ → ℕ → Option (Option ℕ)
  | 0, _ => some none
  | n + 1, i => (test i).bind fun b => if b then some (some i) else search test n (i + 1)

/-! ## Computations that agree -/

section

variable {β γ δ : Type*} {R : α → β → Prop} {S : γ → δ → Prop} {x : Option α} {y : Option β}

/-- What two computations give is related, or both go wrong. -/
theorem rel_bind {f : α → Option γ} {g : β → Option δ} (h : Option.Rel R x y)
    (hfg : ∀ a b, R a b → Option.Rel S (f a) (g b)) : Option.Rel S (x.bind f) (y.bind g) := by
  cases h with
  | none => exact .none
  | some hab => exact hfg _ _ hab

theorem rel_map {f : α → γ} {g : β → δ} (h : Option.Rel R x y)
    (hfg : ∀ a b, R a b → S (f a) (g b)) : Option.Rel S (x.map f) (y.map g) := by
  cases h with
  | none => exact .none
  | some hab => exact .some (hfg _ _ hab)

theorem rel_imp {R' : α → β → Prop} (h : Option.Rel R x y) (hR : ∀ a b, R a b → R' a b) :
    Option.Rel R' x y := by
  cases h with
  | none => exact .none
  | some hab => exact .some (hR _ _ hab)

/-- What is known of the second result. -/
theorem rel_and {P : β → Prop} (h : Option.Rel R x y) (hP : ∀ b, y = some b → P b) :
    Option.Rel (fun a b => R a b ∧ P b) x y := by
  cases h with
  | none => exact .none
  | some hab => exact .some ⟨hab, hP _ rfl⟩

theorem rel_none_iff : Option.Rel R x none ↔ x = none := by
  constructor
  · rintro ⟨⟩
    rfl
  · rintro rfl
    exact .none

theorem rel_some_iff {b : β} : Option.Rel R x (some b) ↔ ∃ a, x = some a ∧ R a b := by
  constructor
  · rintro ⟨⟩
    exact ⟨_, rfl, ‹_›⟩
  · rintro ⟨a, rfl, hab⟩
    exact .some hab

end

variable {body : ℕ → σ → Option σ} {test : ℕ → Option Bool} {n i : ℕ} {s : σ}

/-! ## Invariants -/

theorem exec_spec (I : ℕ → σ → Prop)
    (hbody : ∀ j s, i ≤ j → j < i + n → I j s → ∃ s', body j s = some s' ∧ I (j + 1) s')
    (hs : I i s) : ∃ s', exec body n i s = some s' ∧ I (i + n) s' := by
  induction n generalizing i s with
  | zero => exact ⟨s, rfl, hs⟩
  | succ n ih =>
    obtain ⟨s₁, hs₁, hI⟩ := hbody i s (Nat.le_refl i) (by omega) hs
    obtain ⟨s', hs', hI'⟩ := ih (fun j s hj hlt => hbody j s (by omega) (by omega)) hI
    refine ⟨s', ?_, by rwa [Nat.add_right_comm] at hI'⟩
    rw [exec, hs₁, Option.bind_some, hs']

/-! ## Arrays -/

/-- A search in an array, of which the entries of `xs` are those from `i` on. -/
theorem search_eq {p : α → Bool} (xs : List α)
    (htest : ∀ j x, xs[j]? = some x → test (i + j) = some (p x)) :
    search test xs.length i = some ((xs.findIdx? p).map (i + ·)) := by
  induction xs generalizing i with
  | nil => rfl
  | cons x xs ih =>
    have hrest : search test xs.length (i + 1) = some ((xs.findIdx? p).map (i + 1 + ·)) := by
      refine ih fun j y hy => ?_
      rw [show i + 1 + j = i + (j + 1) by omega]
      exact htest (j + 1) y hy
    have hhead : test i = some (p x) := htest 0 x rfl
    rw [List.length_cons, search, hhead, Option.bind_some, List.findIdx?_cons]
    cases p x with
    | true => rfl
    | false =>
      rw [if_neg Bool.false_ne_true, if_neg Bool.false_ne_true, hrest, Option.map_map]
      refine congrArg some (congrFun (congrArg Option.map (funext fun k => ?_)) _)
      rw [Function.comp_apply]
      omega

/-- A loop that updates every entry of an array, of which those in front of `i` are done. -/
theorem exec_mapM {f : α → Option α} {R : List α → σ → Prop}
    (hbody : ∀ done x xs s, R (done ++ x :: xs) s →
      Option.Rel (fun s y => R (done ++ y :: xs) s) (body done.length s) (f x))
    (done xs : List α) (hs : R (done ++ xs) s) :
    Option.Rel (fun s ys => R (done ++ ys) s) (exec body xs.length done.length s) (xs.mapM f) := by
  induction xs generalizing done s with
  | nil => exact .some hs
  | cons x xs ih =>
    rw [List.mapM_cons]
    refine rel_bind (hbody done x xs s hs) fun s₁ y hs₁ => ?_
    have hlen : done.length + 1 = (done ++ [y]).length := by
      rw [List.length_append, List.length_singleton]
    have hrest := ih (done ++ [y]) (by simpa using hs₁)
    rw [hlen, ← Option.bind_fun_some (exec body xs.length _ _)]
    refine rel_bind hrest fun s₂ ys hs₂ => .some ?_
    simpa using hs₂

end ForLoop
