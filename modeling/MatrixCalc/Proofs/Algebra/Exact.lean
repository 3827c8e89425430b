import Mathlib.Algebra.Field.Basic
import MatrixCalc.Item

/-!
# Exact entries

The entries of a field can be the entries of a matrix: nothing is rounded there. A sum and what is
added to it or taken from it may then be grouped either way, and the grouping makes no difference to
whether the shapes fit.
-/

namespace MatrixCalc

universe u

/-- The elements of a field as entries. -/
instance (priority := low) Scalar.ofField {α : Type u} [Field α] [DecidableEq α] : Scalar α where
  emptySum := 0

namespace DenseMatrix

variable {α : Type u}

theorem toOption_zipEntries (op : Binary) (f : α → α → α) (a b : DenseMatrix α) :
    (zipEntries op f a b).toOption =
      if a.toShape = b.toShape then some { a with values := Array.zipWith f a.values b.values }
      else none := by
  unfold zipEntries
  by_cases h : a.toShape = b.toShape
  · rw [if_pos h, if_pos h]
    rfl
  · rw [if_neg h, if_neg h]
    rfl

/-- Where two operations on entries may be grouped either way, so may they on matrices. -/
theorem zipEntries_assoc {f g : α → α → α} (h : ∀ x y z, g (f x y) z = f x (g y z))
    (op op' : Binary) (a b c : DenseMatrix α) :
    ((zipEntries op f a b).toOption.bind fun s => (zipEntries op' g s c).toOption) =
      (zipEntries op' g b c).toOption.bind fun s => (zipEntries op f a s).toOption := by
  simp only [toOption_zipEntries]
  by_cases hab : a.toShape = b.toShape
  · by_cases hbc : b.toShape = c.toShape
    · have hvalues : Array.zipWith g (Array.zipWith f a.values b.values) c.values =
          Array.zipWith f a.values (Array.zipWith g b.values c.values) := by
        refine Array.ext (by simp [Nat.min_assoc]) fun i hi hi' => ?_
        simp [h]
      simp [hab, hbc, hvalues]
    · simp [hab, hbc]
  · by_cases hbc : b.toShape = c.toShape
    · have hac : a.toShape ≠ c.toShape := hbc ▸ hab
      simp [hbc, hac]
    · simp [hab, hbc]

end DenseMatrix

/-- Adding to a sum, or taking from it, is adding to its last summand or taking from that. -/
theorem Binary.apply_plus_assoc {α : Type u} [Field α] [DecidableEq α] {b : Binary}
    (hb : b ≠ .times) (x y z : DenseMatrix α) :
    ((Binary.plus.apply x y).toOption.bind fun s => (b.apply s z).toOption) =
      (b.apply y z).toOption.bind fun s => (Binary.plus.apply x s).toOption := by
  cases b with
  | times => exact absurd rfl hb
  | minus => exact DenseMatrix.zipEntries_assoc add_sub_assoc .plus .minus x y z
  | plus => exact DenseMatrix.zipEntries_assoc add_assoc .plus .plus x y z

end MatrixCalc
