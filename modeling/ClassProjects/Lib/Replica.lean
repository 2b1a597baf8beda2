import Mathlib.Logic.Function.Basic
import Mathlib.Tactic.Common

/-!
# Replicas

A replica of a table `κ → β` is kept by writing the entries of a log into it, in order. It
is up to date behind a change of the table if the log has entries for all keys whose value
changed (complete), and every entry of it carries the value its key has now (sound). The log
may repeat values that did not change, and in any order.
-/

namespace Replica

variable {κ β : Type*} [DecidableEq κ] {m f g : κ → β} {log log' : List (κ × β)} {k : κ}

/-- Write the entries in order. -/
def write (m : κ → β) (log : List (κ × β)) : κ → β :=
  log.foldl (fun m e => Function.update m e.1 e.2) m

@[simp] theorem write_nil : write m [] = m :=
  rfl

theorem write_cons (e : κ × β) : write m (e :: log) = write (Function.update m e.1 e.2) log :=
  rfl

theorem write_append : write m (log ++ log') = write (write m log) log' :=
  List.foldl_append

/-- A sound log leaves the present value at a key that has it already or has an entry. -/
theorem write_eq_of_sound (hs : ∀ e ∈ log, e.2 = g e.1) (hk : m k = g k ∨ ∃ e ∈ log, e.1 = k) :
    write m log k = g k := by
  induction log generalizing m with
  | nil => simpa using hk
  | cons e log ih =>
    obtain ⟨he, hlog⟩ := List.forall_mem_cons.1 hs
    rw [write_cons]
    refine ih hlog ?_
    by_cases hek : k = e.1
    · left
      rw [hek, Function.update_self, he]
    · rw [Function.update_of_ne hek]
      refine hk.imp_right fun ⟨x, hx, hxk⟩ => ?_
      rcases List.mem_cons.1 hx with rfl | hx
      · exact absurd hxk.symm hek
      · exact ⟨x, hx, hxk⟩

/-- A sound and complete log takes the table to its present state. -/
theorem write_eq (hs : ∀ e ∈ log, e.2 = g e.1) (hc : ∀ k, g k ≠ f k → ∃ e ∈ log, e.1 = k) :
    write f log = g := by
  funext k
  by_cases hk : g k = f k
  · exact write_eq_of_sound hs (Or.inl hk.symm)
  · exact write_eq_of_sound hs (Or.inr (hc k hk))

end Replica
