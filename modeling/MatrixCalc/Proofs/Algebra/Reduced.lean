import Mathlib.LinearAlgebra.Matrix.Echelon.Basic
import MatrixCalc.Proofs.Algebra.Rounded

/-!
# The reduced form of exact entries

A field is exact everywhere, in particular where a zero or a one takes part, so the sweep to the
reduced form ends in that form. As a matrix over a field the grid is then in reduced row echelon
form in the sense of Mathlib (`Grid.isReducedRowEchelon_reducedSweep`).
-/

namespace MatrixCalc

universe u

section Field

variable {α : Type u} [Field α]

/-- No element of a field is infinite or undefined. -/
instance (priority := low) Scalar.HasFinite.ofField : Scalar.HasFinite α := ⟨fun _ => True⟩

variable [DecidableEq α]

instance (priority := low) : Scalar.ExactUnits α where
  isZero_one := beq_eq_false_iff_ne.2 one_ne_zero
  beq_self _ := beq_self_eq_true _
  div_self _ hne := div_self (beq_eq_false_iff_ne.1 hne)
  mul_one _ := mul_one _
  div_one _ := div_one _
  isZero_sub_self _ := beq_iff_eq.2 (sub_self _)
  isZero_zero_div hx _ _ := beq_iff_eq.2 (by rw [eq_of_beq hx, zero_div])
  isZero_mul_zero _ hy := beq_iff_eq.2 (by rw [eq_of_beq hy, mul_zero])
  sub_zero _ hy := .inl (by rw [eq_of_beq hy, sub_zero])

end Field

namespace Grid

variable {α : Type u} [Field α] [DecidableEq α] {m n : Nat} {a : Grid m n α}

theorem isLeadingEntry_iff {i : Fin m} {c : Fin n} :
    a.toMatrix.IsLeadingEntry i c ↔ a.LeadsAt i c := by
  constructor
  · rintro ⟨hleft, hlead⟩
    exact ⟨fun j hj => beq_iff_eq.2 (hleft j hj), beq_eq_false_iff_ne.2 hlead⟩
  · rintro ⟨hleft, hlead⟩
    exact ⟨fun j hj => eq_of_beq (hleft j hj), beq_eq_false_iff_ne.1 hlead⟩

/-- The two ways to say that a grid is in reduced row echelon form. -/
theorem IsReducedEchelon.isReducedRowEchelon (h : a.IsReducedEchelon) :
    a.toMatrix.IsReducedRowEchelon := by
  refine ⟨fun i k hik j hleft => ?_, fun i c hc => h.lead_eq_one i c (isLeadingEntry_iff.1 hc),
    fun i k c hik hc => eq_of_beq (h.others k i c hik.ne (isLeadingEntry_iff.1 hc))⟩
  rcases a.zero_or_leadsAt i with hzero | ⟨c, hc⟩
  · exact eq_of_beq (h.zeros_last i k hik hzero j)
  have hjc : j ≤ c := by
    by_contra hcj
    exact beq_eq_false_iff_ne.1 hc.lead (hleft c (not_le.1 hcj))
  rcases a.zero_or_leadsAt k with hzero | ⟨d, hd⟩
  · exact eq_of_beq (hzero j)
  · exact eq_of_beq (hd.left j (hjc.trans_lt (h.lead_lt i k c d hik hc hd)))

/-- The sweep ends in reduced row echelon form. -/
theorem isReducedRowEchelon_reducedSweep (a : Grid m n α) :
    a.reducedSweep.final.toMatrix.IsReducedRowEchelon :=
  (isReducedEchelon_final 0 0 a (fun _ _ => trivial) (fun _ _ _ _ => trivial)
    a.reducedUpTo_zero).isReducedRowEchelon

end Grid

end MatrixCalc
