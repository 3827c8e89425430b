import MatrixCalc.Grid.Elimination
import Mathlib.Data.List.FinRange
import Mathlib.Logic.Equiv.Basic

/-!
# The search for a pivot

What a search finds and what it leaves behind. A pivot stands in the leftmost column, from the
current one on, that is not zero in the current row and below, and it is the topmost such entry; if
there is none, all entries there are zero. Whatever the arithmetic is, elimination is reasoned about
through these two statements and not through the search itself.
-/

namespace MatrixCalc

universe u

/-- The numbers below `x` are enumerated before it. -/
theorem mem_of_finRange_eq {n : Nat} {before after : List (Fin n)} {x k : Fin n}
    (h : List.finRange n = before ++ x :: after) (hk : k < x) : k ∈ before := by
  have hmem := List.mem_finRange k
  have hsorted := List.pairwise_lt_finRange n
  rw [h] at hmem hsorted
  rcases List.mem_append.1 hmem with hmem | hmem
  · exact hmem
  rcases List.mem_cons.1 hmem with rfl | hmem
  · exact absurd hk (lt_irrefl k)
  · have hlt := (List.pairwise_cons.1 (List.pairwise_append.1 hsorted).2.1).1 k hmem
    exact absurd hk (lt_asymm hlt)

namespace Grid

variable {α : Type u} {m n : Nat}

theorem entry_swapRows_eq (a : Grid m n α) (r s i : Fin m) (j : Fin n) :
    (a.swapRows r s).entry i j = a.entry (Equiv.swap r s i) j := by
  rw [entry_swapRows, Equiv.swap_apply_def]

variable [Scalar α]

/-- From a row on, all entries from one column up to another are zero. -/
def ZeroFrom (a : Grid m n α) (row : Fin m) (col stop : Nat) : Prop :=
  ∀ j : Fin n, col ≤ j.val → j.val < stop → ∀ i, row ≤ i → Scalar.isZero (a.entry i j) = true

theorem pivotRow?_eq_some {a : Grid m n α} {row i : Fin m} {j : Fin n}
    (h : a.pivotRow? row j = some i) :
    row ≤ i ∧ Scalar.isZero (a.entry i j) = false ∧
      ∀ k, row ≤ k → k < i → Scalar.isZero (a.entry k j) = true := by
  obtain ⟨hi, before, after, hsplit, hbefore⟩ := List.find?_eq_some_iff_append.1 h
  rw [Bool.and_eq_true, decide_eq_true_eq, Bool.not_eq_true'] at hi
  refine ⟨hi.1, hi.2, fun k hk hki => ?_⟩
  simpa [hk] using hbefore k (mem_of_finRange_eq hsplit hki)

theorem pivotRow?_eq_none {a : Grid m n α} {row : Fin m} {j : Fin n}
    (h : a.pivotRow? row j = none) (i : Fin m) (hi : row ≤ i) :
    Scalar.isZero (a.entry i j) = true := by
  have hnone := List.find?_eq_none.1 h i (List.mem_finRange i)
  simpa [hi] using hnone

/-- A pivot that was found stands at the topmost entry other than zero of the leftmost column that
has one. -/
theorem findPivot?_eq_some {a : Grid m n α} {row : Fin m} {col : Nat} {p : Pivot m n}
    (h : a.findPivot? row col = some p) :
    p.target = row ∧ row ≤ p.source ∧ col ≤ p.column.val ∧
      Scalar.isZero (a.entry p.source p.column) = false ∧
      (∀ k, row ≤ k → k < p.source → Scalar.isZero (a.entry k p.column) = true) ∧
      a.ZeroFrom row col p.column := by
  obtain ⟨before, j, after, hsplit, hj, hbefore⟩ := List.findSome?_eq_some_iff.1 h
  have hcol : col ≤ j.val := by
    by_contra hlt
    simp [hlt] at hj
  rw [if_pos hcol] at hj
  obtain ⟨i, hi, rfl⟩ := Option.map_eq_some_iff.1 hj
  obtain ⟨hrow, hlead, htop⟩ := pivotRow?_eq_some hi
  refine ⟨rfl, hrow, hcol, hlead, htop, fun k hk hkj i hi => ?_⟩
  -- the columns further left were searched in vain
  have hnone := hbefore k (mem_of_finRange_eq hsplit hkj)
  rw [if_pos hk, Option.map_eq_none_iff] at hnone
  exact pivotRow?_eq_none hnone i hi

/-- Where no pivot is found, nothing is left to eliminate. -/
theorem findPivot?_eq_none {a : Grid m n α} {row : Fin m} {col : Nat}
    (h : a.findPivot? row col = none) : a.ZeroFrom row col n := by
  intro j hj _ i hi
  have hnone := List.findSome?_eq_none_iff.1 h j (List.mem_finRange j)
  rw [if_pos hj, Option.map_eq_none_iff] at hnone
  exact pivotRow?_eq_none hnone i hi

end Grid

end MatrixCalc
