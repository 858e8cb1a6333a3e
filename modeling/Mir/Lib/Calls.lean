import Mathlib

/-!
# Calls and their results

A component asks another one for results, naming each call by a value that comes back with the result.
`Outstanding asked answered a` says that more calls named `a` were made than answered. If only
outstanding calls are answered, the answered calls are among the asked ones, with multiplicity.
-/

namespace Mir.Calls

variable {α : Type*} [DecidableEq α] {asked answered : List α} {a : α}

/-- More calls of this name were made than answered. -/
def Outstanding (asked answered : List α) (a : α) : Prop := answered.count a < asked.count a

instance : Decidable (Outstanding asked answered a) := inferInstanceAs (Decidable (_ < _))

theorem Outstanding.mem (h : Outstanding asked answered a) : a ∈ asked :=
  List.count_pos_iff.mp (Nat.zero_lt_of_lt h)

/-- Answering an outstanding call keeps the answered calls among the asked ones. -/
theorem Outstanding.subperm (h : Outstanding asked answered a) (hsub : answered.Subperm asked) :
    (answered ++ [a]).Subperm asked := by
  rw [List.subperm_iff_count] at hsub ⊢
  intro b
  have hb := hsub b
  rw [List.count_append, List.count_singleton]
  split
  next hab =>
    obtain rfl := beq_iff_eq.mp hab
    exact h
  next => exact hb

theorem mem_of_not_outstanding (h : ¬ Outstanding asked answered a) (ha : a ∈ asked) :
    a ∈ answered := by
  have hpos := List.count_pos_iff.mpr ha
  rw [Outstanding] at h
  exact List.count_pos_iff.mp (by omega)

end Mir.Calls
