import Mathlib.Algebra.BigOperators.Group.List.Basic
import Mathlib.Algebra.Ring.Hom.Defs
import Mathlib.Tactic.Ring

/-!
The two running sums of a Fletcher checksum over any commutative ring: the sum of a
window and the sum of its running sums, in which a letter counts as often as there are
letters from it to the end. Both follow a window that slides by one letter without
being added up again, and both commute with ring homomorphisms, so that reducing every
letter first or the result at last makes no difference.
-/
namespace TailSync.WindowSums

section Semiring
variable {R S : Type*} [CommSemiring R] [CommSemiring S]

def sumStep (s : R × R) (c : R) : R × R := (s.1 + c, s.2 + (s.1 + c))

def weighted : List R → R
  | [] => 0
  | c :: rest => (rest.length + 1 : ℕ) * c + weighted rest

/-- The running sums from arbitrary values. -/
theorem foldl_sumStep (w : List R) (a b : R) :
    w.foldl sumStep (a, b) = (a + w.sum, b + w.length * a + weighted w) := by
  induction w generalizing a b with
  | nil => simp [weighted]
  | cons c rest ih =>
    rw [List.foldl_cons, sumStep, ih]
    simp only [List.sum_cons, List.length_cons, weighted, Nat.cast_add, Nat.cast_one,
      Prod.mk.injEq]
    constructor <;> ring

theorem weighted_concat (w : List R) (c : R) :
    weighted (w ++ [c]) = weighted w + (w.sum + c) := by
  induction w with
  | nil => simp [weighted]
  | cons d rest ih =>
    simp only [List.cons_append, weighted, ih, List.length_append, List.length_singleton,
      List.sum_cons, Nat.cast_add, Nat.cast_one]
    ring

theorem map_weighted (f : R →+* S) (w : List R) : f (weighted w) = weighted (w.map f) := by
  induction w with
  | nil => simp [weighted]
  | cons c rest ih => simp [weighted, ih]

end Semiring

variable {R : Type*} [CommRing R]

/-- Sliding a window by one letter, from its old sums alone. -/
theorem sums_slide (out inn : R) (w : List R) :
    (w ++ [inn]).sum = (out :: w).sum - out + inn ∧
    weighted (w ++ [inn]) =
      weighted (out :: w) - (w.length + 1 : ℕ) * out + (w ++ [inn]).sum := by
  rw [weighted_concat, weighted, List.sum_append, List.sum_singleton, List.sum_cons]
  constructor <;> ring

end TailSync.WindowSums
