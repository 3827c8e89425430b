import Mathlib.Data.Rat.Defs
import MatrixCalc.Proofs.Algebra.Linear
import MatrixCalc.Proofs.Outline.Value
import MatrixCalc.Proofs.Storage.Results
import MatrixCalc.Proofs.Storage.Sizes

/-!
# Laws of matrix arithmetic

Over a field, sums, differences and products of matrices obey the laws of a ring as far as they are
defined: the two sides of a law are defined for the same shapes, and then they are the same matrix
(`DenseMatrix.arithmetic_laws`). Grids of fitting sizes are matrices of linear algebra, where the
laws are known; what remains is that shapes that do not fit on one side do not fit on the other.

§1 grids · §2 operations on grids · §3 laws
-/

namespace MatrixCalc

variable {α : Type}

/-! ## §1 Grids -/

namespace Grid

variable {m n k l : Nat}

def zipWith (f : α → α → α) (g h : Grid m n α) : Grid m n α :=
  ofFn fun i j => f (g.entry i j) (h.entry i j)

@[simp] theorem entry_zipWith (f : α → α → α) (g h : Grid m n α) (i : Fin m) (j : Fin n) :
    (zipWith f g h).entry i j = f (g.entry i j) (h.entry i j) :=
  entry_ofFn _ i j

theorem entries_zipWith (f : α → α → α) (g h : Grid m n α) :
    Array.zipWith f g.entries h.entries = (zipWith f g h).entries := by
  refine eq_entries (by simp) fun i j => ?_
  rw [Array.getElem?_zipWith, getElem?_entries, getElem?_entries, entry_zipWith]

variable [Field α] [DecidableEq α]

@[simp] theorem toMatrix_zipWith_add (g h : Grid m n α) :
    (zipWith (· + ·) g h).toMatrix = g.toMatrix + h.toMatrix := by
  ext i j
  exact entry_zipWith _ g h i j

theorem mul_assoc (g : Grid m k α) (h : Grid k l α) (e : Grid l n α) :
    (g.mul h).mul e = g.mul (h.mul e) :=
  toMatrix_inj.1 (by simp only [toMatrix_mul, Matrix.mul_assoc])

theorem mul_add (g : Grid m k α) (h e : Grid k n α) :
    g.mul (zipWith (· + ·) h e) = zipWith (· + ·) (g.mul h) (g.mul e) :=
  toMatrix_inj.1 (by simp only [toMatrix_mul, toMatrix_zipWith_add, Matrix.mul_add])

theorem add_mul (g h : Grid m k α) (e : Grid k n α) :
    (zipWith (· + ·) g h).mul e = zipWith (· + ·) (g.mul e) (h.mul e) :=
  toMatrix_inj.1 (by simp only [toMatrix_mul, toMatrix_zipWith_add, Matrix.add_mul])

theorem identity_mul (g : Grid m n α) : (identity m).mul g = g :=
  toMatrix_inj.1 (by simp only [toMatrix_mul, toMatrix_identity, Matrix.one_mul])

theorem mul_identity (g : Grid m n α) : g.mul (identity n) = g :=
  toMatrix_inj.1 (by simp only [toMatrix_mul, toMatrix_identity, Matrix.mul_one])

theorem zipWith_sub_add (g h : Grid m n α) :
    zipWith (· + ·) (zipWith (· - ·) g h) h = g :=
  ext_entry fun i j => by rw [entry_zipWith, entry_zipWith, sub_add_cancel]

end Grid

/-! ## §2 What the operations give -/

theorem Shape.eq_iff {s t : Shape} : s = t ↔ s.rows = t.rows ∧ s.cols = t.cols := by
  obtain ⟨_, _⟩ := s
  obtain ⟨_, _⟩ := t
  exact iff_of_eq (Shape.mk.injEq ..)

namespace DenseMatrix

variable {m n k : Nat} {a b c : DenseMatrix α}

/-- What a sum or a difference is if the shapes are the same. -/
def joined (f : α → α → α) (a b : DenseMatrix α) : DenseMatrix α :=
  { a with values := Array.zipWith f a.values b.values }

@[simp] theorem toShape_joined (f : α → α → α) (a b : DenseMatrix α) :
    (joined f a b).toShape = a.toShape := rfl

theorem joined_ofGrid (f : α → α → α) (g h : Grid m n α) :
    joined f (ofGrid g) (ofGrid h) = ofGrid (Grid.zipWith f g h) :=
  congrArg (DenseMatrix.mk ⟨m, n⟩) (Grid.entries_zipWith f g h)

/-- A sum or a difference is defined for matrices of one shape. -/
theorem toOption_zipEntries_eq (op : Binary) (f : α → α → α) (a b : DenseMatrix α) :
    (zipEntries op f a b).toOption =
      if a.rows = b.rows ∧ a.cols = b.cols then some (joined f a b) else none := by
  simp only [toOption_zipEntries, Shape.eq_iff, joined]

section Products

variable [Scalar α]

/-- What a product is if the shapes fit. -/
def product (a b : DenseMatrix α) : DenseMatrix α :=
  ofGrid (a.grid.mul (b.view a.cols b.cols))

@[simp] theorem toShape_product (a b : DenseMatrix α) :
    (product a b).toShape = ⟨a.rows, b.cols⟩ := rfl

theorem product_ofGrid (g : Grid m k α) (h : Grid k n α) :
    product (ofGrid g) (ofGrid h) = ofGrid (g.mul h) := by
  show ofGrid ((ofGrid g).grid.mul ((ofGrid h).view k n)) = _
  rw [view_ofGrid]
  exact congrArg (fun x : Grid m k α => ofGrid (x.mul h)) (grid_ofGrid g)

theorem toOption_mul (a b : DenseMatrix α) :
    (a.mul b).toOption = if a.cols = b.rows then some (product a b) else none := by
  unfold mul
  by_cases hfit : a.cols = b.rows
  · rw [if_pos hfit, if_pos hfit]
    rfl
  · rw [if_neg hfit, if_neg hfit]
    rfl

end Products

/-! ## §3 Laws -/

variable [Field α] [DecidableEq α]

theorem product_assoc (ha : a.WellFormed) (hb : b.WellFormed) (hc : c.WellFormed)
    (hleft : a.cols = b.rows) (hright : b.cols = c.rows) :
    product (product a b) c = product a (product b c) := by
  obtain ⟨m, k, g, -, -, rfl⟩ := ha.exists_grid
  obtain ⟨k', l, h, -, -, rfl⟩ := hb.exists_grid
  obtain ⟨l', n, e, -, -, rfl⟩ := hc.exists_grid
  obtain rfl : k = k' := hleft
  obtain rfl : l = l' := hright
  simp only [product_ofGrid, Grid.mul_assoc]

theorem product_joined (ha : a.WellFormed) (hb : b.WellFormed) (hc : c.WellFormed)
    (hfit : a.cols = b.rows) (hrows : b.rows = c.rows) (hcols : b.cols = c.cols) :
    product a (joined (· + ·) b c) = joined (· + ·) (product a b) (product a c) := by
  obtain ⟨m, k, g, -, -, rfl⟩ := ha.exists_grid
  obtain ⟨k₁, n₁, h, -, -, rfl⟩ := hb.exists_grid
  obtain ⟨k₂, n₂, e, -, -, rfl⟩ := hc.exists_grid
  obtain rfl : k = k₁ := hfit
  obtain rfl : k = k₂ := hrows
  obtain rfl : n₁ = n₂ := hcols
  simp only [joined_ofGrid, product_ofGrid, Grid.mul_add]

theorem joined_product (ha : a.WellFormed) (hb : b.WellFormed) (hc : c.WellFormed)
    (hrows : a.rows = b.rows) (hcols : a.cols = b.cols) (hfit : b.cols = c.rows) :
    product (joined (· + ·) a b) c = joined (· + ·) (product a c) (product b c) := by
  obtain ⟨m₁, k₁, g, -, -, rfl⟩ := ha.exists_grid
  obtain ⟨m₂, k₂, h, -, -, rfl⟩ := hb.exists_grid
  obtain ⟨k, n, e, -, -, rfl⟩ := hc.exists_grid
  obtain rfl : m₁ = m₂ := hrows
  obtain rfl : k₁ = k₂ := hcols
  obtain rfl : k₁ = k := hfit
  simp only [joined_ofGrid, product_ofGrid, Grid.add_mul]

/-- A product of three is defined, grouped either way, if both pairs of neighbours fit. -/
theorem toOption_mul_assoc (ha : a.WellFormed) (hb : b.WellFormed) (hc : c.WellFormed) :
    ((a.mul b).toOption.bind fun s => (s.mul c).toOption) =
      (b.mul c).toOption.bind fun s => (a.mul s).toOption := by
  simp only [toOption_mul]
  by_cases hleft : a.cols = b.rows
  · by_cases hright : b.cols = c.rows
    · have hvalue := product_assoc ha hb hc hleft hright
      simp [hleft, hright, hvalue]
    · simp [hleft, hright]
  · by_cases hright : b.cols = c.rows
    · simp [hleft, hright]
    · simp [hleft, hright]

/-- A factor is multiplied with a sum if it fits one summand and these are of one shape. -/
theorem toOption_mul_add (ha : a.WellFormed) (hb : b.WellFormed) (hc : c.WellFormed) :
    ((b.add c).toOption.bind fun s => (a.mul s).toOption) =
      (a.mul b).toOption.bind fun p => (a.mul c).toOption.bind fun q => (p.add q).toOption := by
  simp only [toOption_mul, add, toOption_zipEntries_eq]
  by_cases hfit : a.cols = b.rows
  · by_cases hrows : b.rows = c.rows
    · by_cases hcols : b.cols = c.cols
      · have hvalue := product_joined ha hb hc hfit hrows hcols
        simp [hfit, hrows, hcols, hvalue]
      · simp [hfit, hrows, hcols]
    · simp [hfit, hrows]
  · simp [hfit]

theorem toOption_add_mul (ha : a.WellFormed) (hb : b.WellFormed) (hc : c.WellFormed) :
    ((a.add b).toOption.bind fun s => (s.mul c).toOption) =
      (a.mul c).toOption.bind fun p => (b.mul c).toOption.bind fun q => (p.add q).toOption := by
  simp only [toOption_mul, add, toOption_zipEntries_eq]
  by_cases hcols : a.cols = b.cols
  · by_cases hfit : b.cols = c.rows
    · by_cases hrows : a.rows = b.rows
      · have hvalue := joined_product ha hb hc hrows hcols hfit
        simp [hfit, hrows, hcols, hvalue]
      · simp [hfit, hrows, hcols]
    · simp [hfit, hcols]
  · by_cases hfit : a.cols = c.rows
    · have hother : b.cols ≠ c.rows := fun h => hcols (hfit.trans h.symm)
      simp [hfit, hother, hother.symm]
    · simp [hcols, hfit]

theorem toOption_add_comm (a b : DenseMatrix α) : (a.add b).toOption = (b.add a).toOption := by
  simp only [add, toOption_zipEntries]
  by_cases hshape : a.toShape = b.toShape
  · rw [if_pos hshape, if_pos hshape.symm, hshape, Array.zipWith_comm]
    simp only [add_comm]
  · rw [if_neg hshape, if_neg (Ne.symm hshape)]

theorem identity_mul (ha : a.WellFormed) (hfits : a.rows * a.rows < wordCount) :
    ∃ e, Storage.identity a.rows = .ok e ∧ identity a.rows = .ok e ∧ e.mul a = .ok a := by
  have hone := Storage.identity_eq_ok (α := α) ha.rows_pos hfits
  refine ⟨_, hone, Storage.eq_identity hone, ?_⟩
  obtain ⟨m, n, g, -, -, rfl⟩ := ha.exists_grid
  exact (mul_ofGrid (Grid.identity m) g).trans (by rw [Grid.identity_mul])

theorem mul_identity (ha : a.WellFormed) (hfits : a.cols * a.cols < wordCount) :
    ∃ e, Storage.identity a.cols = .ok e ∧ identity a.cols = .ok e ∧ a.mul e = .ok a := by
  have hone := Storage.identity_eq_ok (α := α) ha.cols_pos hfits
  refine ⟨_, hone, Storage.eq_identity hone, ?_⟩
  obtain ⟨m, n, g, -, -, rfl⟩ := ha.exists_grid
  exact (mul_ofGrid g (Grid.identity n)).trans (by rw [Grid.mul_identity])

/-- What is taken away and added again makes no difference, if it can be taken away at all. -/
theorem sub_add_eq_some_iff (ha : a.WellFormed) (hb : b.WellFormed) {d : DenseMatrix α} :
    ((a.sub b).toOption.bind fun s => (s.add b).toOption) = some d ↔
      a.toShape = b.toShape ∧ d = a := by
  simp only [sub, add, toOption_zipEntries_eq, Shape.eq_iff]
  by_cases hshape : a.rows = b.rows ∧ a.cols = b.cols
  · have hvalue : joined (· + ·) (joined (· - ·) a b) b = a := by
      obtain ⟨m, n, g, -, -, rfl⟩ := ha.exists_grid
      obtain ⟨m', n', h, -, -, rfl⟩ := hb.exists_grid
      obtain rfl : m = m' := hshape.1
      obtain rfl : n = n' := hshape.2
      simp only [joined_ofGrid, Grid.zipWith_sub_add]
    simp [hshape, hvalue, eq_comm]
  · simp [hshape]

/-- The laws of a ring, as far as sums, differences and products are defined: one side of a law is
defined exactly if the other is, and then both are the same matrix. The identity with as many rows,
or as many columns, can always be multiplied with a matrix and gives the matrix back, as long as a
word can count the entries of the identity, as it can for all that fit into memory. If it cannot,
what its constructor gives is no well-formed matrix, and where a word counts none at all the
constructor stops at its first write.
What can be taken away can be added again, which gives the matrix back; what has another shape
cannot. -/
theorem arithmetic_laws (a b c : DenseMatrix α) (ha : a.WellFormed) (hb : b.WellFormed)
    (hc : c.WellFormed) :
    ((a.mul b).toOption.bind fun s => (s.mul c).toOption) =
        ((b.mul c).toOption.bind fun s => (a.mul s).toOption) ∧
    ((b.add c).toOption.bind fun s => (a.mul s).toOption) =
        ((a.mul b).toOption.bind fun p => (a.mul c).toOption.bind fun q => (p.add q).toOption) ∧
    ((a.add b).toOption.bind fun s => (s.mul c).toOption) =
        ((a.mul c).toOption.bind fun p => (b.mul c).toOption.bind fun q => (p.add q).toOption) ∧
    (a.add b).toOption = (b.add a).toOption ∧
    ((a.add b).toOption.bind fun s => (s.add c).toOption) =
        ((b.add c).toOption.bind fun s => (a.add s).toOption) ∧
    (a.rows * a.rows < wordCount →
      ∃ e, Storage.identity a.rows = .ok e ∧ identity a.rows = .ok e ∧ e.mul a = .ok a) ∧
    (a.cols * a.cols < wordCount →
      ∃ e, Storage.identity a.cols = .ok e ∧ identity a.cols = .ok e ∧ a.mul e = .ok a) ∧
    (∀ size, wordCount ≤ size * size →
      (∀ e : DenseMatrix α, Storage.identity size = .ok e → ¬ e.WellFormed) ∧
      (word (size * size) = 0 →
        (Storage.identity size : Except Failure (DenseMatrix α)) = .error (.outside 0 0))) ∧
    ∀ d, ((a.sub b).toOption.bind fun s => (s.add b).toOption) = some d ↔
      a.toShape = b.toShape ∧ d = a :=
  ⟨toOption_mul_assoc ha hb hc, toOption_mul_add ha hb hc, toOption_add_mul ha hb hc,
    toOption_add_comm a b, zipEntries_assoc add_assoc .plus .plus a b c, identity_mul ha,
    mul_identity ha, fun _ hover =>
      ⟨fun _ h => not_wellFormed_of_identity (Storage.eq_identity h) hover,
        Storage.identity_stops (Nat.pos_of_mul_pos_left (Nat.lt_of_lt_of_le (by decide) hover))⟩,
    fun _ => sub_add_eq_some_iff ha hb⟩

/-- Three rational matrices of which no two have the same shape. The product of all three is
defined, the sum of the last two is not. The identity of size `2 ^ 32` would have `2 ^ 64`
entries. -/
theorem arithmetic_laws_rationals :
    let a : DenseMatrix ℚ := ofGrid #v[#v[1, 2, 3], #v[0, 1, 1 / 2]]
    let b : DenseMatrix ℚ := ofGrid #v[#v[1], #v[-1], #v[2]]
    let c : DenseMatrix ℚ := ofGrid #v[#v[2, 1 / 3]]
    ((a.mul b).toOption.bind fun s => (s.mul c).toOption) =
        some (ofGrid #v[#v[10, 5 / 3], #v[0, 0]]) ∧
      ((b.mul c).toOption.bind fun s => (a.mul s).toOption) =
        some (ofGrid #v[#v[10, 5 / 3], #v[0, 0]]) ∧
      ((a.mul b).toOption.bind fun p => (a.mul c).toOption.bind fun q => (p.add q).toOption) =
        none ∧
      (∃ e, Storage.identity 2 = .ok e ∧ identity 2 = .ok e ∧ e.mul a = .ok a) ∧
      (Storage.identity (2 ^ 32) : Except Failure (DenseMatrix ℚ)) = .error (.outside 0 0) ∧
      ∀ d, ((a.sub a).toOption.bind fun s => (s.add a).toOption) = some d ↔ d = a := by
  intro a b c
  have ha : a.WellFormed := wellFormed_ofGrid _ (Nat.succ_pos 1) (Nat.succ_pos 2)
  have hb : b.WellFormed := wellFormed_ofGrid _ (Nat.succ_pos 2) (Nat.succ_pos 0)
  have hc : c.WellFormed := wellFormed_ofGrid _ (Nat.succ_pos 0) (Nat.succ_pos 1)
  obtain ⟨hassoc, hdistrib, -, -, -, hidentity, -, hover, -⟩ := arithmetic_laws a b c ha hb hc
  obtain ⟨-, -, -, -, -, -, -, -, hback⟩ := arithmetic_laws a a a ha ha ha
  have hvalue : ((a.mul b).toOption.bind fun s => (s.mul c).toOption) =
      some (ofGrid #v[#v[10, 5 / 3], #v[0, 0]]) := by decide +kernel
  exact ⟨hvalue, hassoc.symm.trans hvalue, hdistrib.symm, hidentity (by decide),
    (hover (2 ^ 32) (by decide)).2 (by decide), fun d => (hback d).trans (and_iff_right rfl)⟩

end DenseMatrix

end MatrixCalc
