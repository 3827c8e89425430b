import MatrixCalc.Proofs.Algebra.Linear
import MatrixCalc.Proofs.Decimal.Units
import MatrixCalc.Proofs.Storage.Access

/-!
# Transposes

A product is transposed by multiplying the transposes in the other order. The entry at a place is
then the sum of the same products in the same order, each with its two factors exchanged, so nothing
but that exchange has to be free (`DenseMatrix.transpose_mul_reversed`). It is for doubles, where
there is one NaN.

§1 the exchange of factors · §2 entries · §3 products
-/

namespace MatrixCalc

open DenseMatrix (wordCount word)

/-! ## §1 The exchange of factors -/

open Float.Model Float.Model.UnpackedFloat in
/-- The sign and the size of a product of doubles do not depend on the order of the factors. -/
theorem double_mul_comm (x y : Float) : x * y = y * x := by
  have hsign (s t : Sign) : s * t = t * s := by cases s <;> cases t <;> rfl
  refine eq_of_unpack ?_
  rw [unpack_mul, unpack_mul]
  congr 2
  cases x.toModel.unpack <;> cases y.toModel.unpack <;>
    simp only [UnpackedFloat.mul, hsign, Nat.mul_comm, Int.add_comm]

instance commutative_mul_double : Std.Commutative fun x y : Float => x * y := ⟨double_mul_comm⟩

/-! ## §2 Entries -/

namespace Grid

variable {α : Type} {m n k : Nat}

theorem transpose_transpose (g : Grid m n α) : g.transpose.transpose = g :=
  ext_entry fun i j => by rw [entry_transpose, entry_transpose]

/-- The sums of a product go over the same products if both factors are transposed. -/
theorem transpose_mul [Scalar α] [Std.Commutative fun x y : α => x * y] (g : Grid m k α)
    (h : Grid k n α) : (g.mul h).transpose = h.transpose.mul g.transpose := by
  refine ext_entry fun j i => ?_
  rw [entry_transpose, entry_mul, entry_mul]
  refine congrArg Scalar.sum (List.map_congr_left fun l _ => ?_)
  rw [entry_transpose, entry_transpose]
  have hcomm : Std.Commutative fun x y : α => x * y := inferInstance
  exact hcomm.comm _ _

end Grid

namespace DenseMatrix

variable {α : Type}

/-- An entry is there if its row and its column are. -/
theorem get?_ofGrid {m n : Nat} (hsize : m * n < wordCount) (g : Grid m n α) (i : Fin m)
    (j : Fin n) : (ofGrid g).get? i j = some (g.entry i j) := by
  rw [get?, if_neg (by simp only [ofGrid]; omega)]
  exact (congrArg (g.entries[·]?) (word_of_lt ((Grid.position_lt i j).trans hsize))).trans
    (g.getElem?_entries i j)

theorem get?_eq_none {a : DenseMatrix α} {i j : Nat} (h : a.rows ≤ i ∨ a.cols ≤ j) :
    a.get? i j = none :=
  if_pos h

variable [Scalar α] {a b : DenseMatrix α}

theorem transpose_ofGrid {m n : Nat} (g : Grid m n α) :
    (ofGrid g).transpose = ofGrid g.transpose :=
  congrArg (fun x : Grid m n α => ofGrid x.transpose) (grid_ofGrid g)

theorem get?_transpose (ha : a.WellFormed) (hsize : a.rows * a.cols < wordCount) (i j : Nat) :
    a.transpose.get? j i = a.get? i j := by
  obtain ⟨m, n, g, -, -, rfl⟩ := ha.exists_grid
  rw [transpose_ofGrid]
  by_cases hplace : i < m ∧ j < n
  · obtain ⟨hi, hj⟩ := hplace
    have hflipped : n * m < wordCount := by rwa [Nat.mul_comm]
    exact (get?_ofGrid hflipped g.transpose ⟨j, hj⟩ ⟨i, hi⟩).trans
      ((congrArg some (Grid.entry_transpose g _ _)).trans
        (get?_ofGrid hsize g ⟨i, hi⟩ ⟨j, hj⟩).symm)
  · have hout : m ≤ i ∨ n ≤ j := by omega
    rw [get?_eq_none (a := ofGrid g) hout, get?_eq_none (a := ofGrid g.transpose) hout.symm]

theorem transpose_transpose (ha : a.WellFormed) : a.transpose.transpose = a := by
  obtain ⟨m, n, g, -, -, rfl⟩ := ha.exists_grid
  rw [transpose_ofGrid, transpose_ofGrid, Grid.transpose_transpose]

/-! ## §3 Products -/

/-- A product is defined exactly if the product of the transposes in the other order is. -/
theorem exists_mul_transpose_iff :
    (∃ c, a.mul b = .ok c) ↔ ∃ d, b.transpose.mul a.transpose = .ok d := by
  simp only [mul_eq_ok_iff, exists_and_left, exists_eq', and_true]
  exact eq_comm

theorem transpose_mul_of_eq_ok [Std.Commutative fun x y : α => x * y] {c : DenseMatrix α}
    (h : a.mul b = .ok c) : b.transpose.mul a.transpose = .ok c.transpose := by
  obtain ⟨⟨m, k⟩, left⟩ := a
  obtain ⟨⟨k', n⟩, right⟩ := b
  obtain ⟨hfit, rfl⟩ := mul_eq_ok_iff.1 h
  obtain rfl : k = k' := hfit
  rw [transpose_ofGrid, Grid.transpose_mul]
  exact mul_ofGrid _ _

/-- Transposed twice, a matrix is as it was, and transposed once it has its entries at the exchanged
places. A product is defined exactly if the product of the transposes in the other order is, and
that one has, entry for entry, what the transposed product has: its sums are taken over the same
products in the same order. Of the arithmetic of the entries only one thing matters, that factors
can be exchanged. A place is computed in a word; the values of a matrix are in memory, where there
are fewer of them than words. -/
theorem transpose_mul_reversed [Std.Commutative fun x y : α => x * y] (a b : DenseMatrix α)
    (ha : a.WellFormed) (hsize : a.rows * a.cols < wordCount) :
    a.transpose.transpose = a ∧
    (∀ i j, a.transpose.get? j i = a.get? i j) ∧
    ((∃ c, a.mul b = .ok c) ↔ ∃ d, b.transpose.mul a.transpose = .ok d) ∧
    ∀ c, a.mul b = .ok c → b.transpose.mul a.transpose = .ok c.transpose :=
  ⟨transpose_transpose ha, get?_transpose ha hsize, exists_mul_transpose_iff,
    fun _ h => transpose_mul_of_eq_ok h⟩

/-- Doubles in two rows and three columns, with an infinity, a minus zero and a product that is no
number. -/
theorem transpose_mul_reversed_doubles :
    let a : DenseMatrix Float := ofGrid #v[#v[0.1, 1e308, -0.0], #v[1 / 0, 3, 0.7]]
    let b : DenseMatrix Float := ofGrid #v[#v[0], #v[10], #v[0.3]]
    a.transpose.transpose = a ∧ a.transpose.get? 2 1 = a.get? 1 2 ∧
      (∃ d, b.transpose.mul a.transpose = .ok d) ∧
      ∀ c, a.mul b = .ok c → b.transpose.mul a.transpose = .ok c.transpose := by
  intro a b
  obtain ⟨htwice, hentries, hdefined, hproduct⟩ := transpose_mul_reversed a b
    (wellFormed_ofGrid _ (Nat.succ_pos 1) (Nat.succ_pos 2)) (by decide)
  exact ⟨htwice, hentries 1 2, hdefined.1 ⟨_, if_pos rfl⟩, hproduct⟩

end DenseMatrix

end MatrixCalc
