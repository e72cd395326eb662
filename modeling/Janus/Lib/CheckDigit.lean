import Mathlib.Algebra.BigOperators.Intervals
import Mathlib.Data.Nat.ModEq

/-!
# Check digits

A check sum adds a term for every element of a list, depending on its position. Two lists
that differ in one element have sums that agree modulo `n` exactly when the two terms do
(`total_replace`), and so for two neighbours that change places (`total_swap`).
-/

namespace Janus.CheckDigit

set_option autoImplicit false

variable {α : Type} (term : Nat → α → Nat)

/-- The sum of the terms, the first element being at position `i`. -/
def total : Nat → List α → Nat
  | _, [] => 0
  | i, d :: ds => term i d + total (i + 1) ds

theorem total_append (i : Nat) (xs ys : List α) :
    total term i (xs ++ ys) = total term i xs + total term (i + xs.length) ys := by
  induction xs generalizing i with
  | nil => simp [total]
  | cons x xs ih =>
    have hlen : i + 1 + xs.length = i + (x :: xs).length := by
      rw [List.length_cons]
      omega
    rw [List.cons_append, total, total, ih, hlen, Nat.add_assoc]

theorem total_eq_sum_from (default : α) (i : Nat) (xs : List α) :
    total term i xs = ∑ j ∈ Finset.range xs.length, term (i + j) (xs.getD j default) := by
  induction xs generalizing i with
  | nil => rfl
  | cons x xs ih =>
    rw [total, ih, List.length_cons, Finset.sum_range_succ', Nat.add_comm]
    apply congrArg₂
    · apply Finset.sum_congr rfl
      intro j _
      rw [List.getD_cons_succ, Nat.add_right_comm, Nat.add_assoc]
    · rw [List.getD_cons_zero, Nat.add_zero]

theorem total_eq_sum (default : α) (xs : List α) :
    total term 0 xs = ∑ j ∈ Finset.range xs.length, term j (xs.getD j default) := by
  rw [total_eq_sum_from term default]
  apply Finset.sum_congr rfl
  intro j _
  rw [Nat.zero_add]

/-- One element in place of another. -/
theorem total_replace {n i : Nat} (xs ys : List α) (d e : α) :
    total term i (xs ++ d :: ys) ≡ total term i (xs ++ e :: ys) [MOD n] ↔
      term (i + xs.length) d ≡ term (i + xs.length) e [MOD n] := by
  rw [total_append, total_append, total, total]
  constructor
  · intro h
    exact Nat.ModEq.add_right_cancel' _ (Nat.ModEq.add_left_cancel' _ h)
  · intro h
    exact (h.add_right _).add_left _

/-- Two neighbours that change places. -/
theorem total_swap {n i : Nat} (xs ys : List α) (d e : α) :
    total term i (xs ++ d :: e :: ys) ≡ total term i (xs ++ e :: d :: ys) [MOD n] ↔
      term (i + xs.length) d + term (i + xs.length + 1) e ≡
        term (i + xs.length) e + term (i + xs.length + 1) d [MOD n] := by
  rw [total_append, total_append, total, total, total, total, ← Nat.add_assoc (term _ d),
    ← Nat.add_assoc (term _ e)]
  constructor
  · intro h
    exact Nat.ModEq.add_right_cancel' _ (Nat.ModEq.add_left_cancel' _ h)
  · intro h
    exact (h.add_right _).add_left _

end Janus.CheckDigit
