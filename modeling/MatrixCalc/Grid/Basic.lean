/-!
# Grids

Matrices are written over any type of entries with the four operations, a zero, a one and an
equality test. Doubles are the entries of the calculator; the algebra of matrices is stated over
exact ones.

A grid has its row and column counts in its type, so every access to an entry is in bounds. The
algebra of matrices is computed on grids. `entry` is the view of a grid through which everything
about it is said: each operation has one lemma that gives the entries of its result.
-/

namespace MatrixCalc

universe u

/-! ## §1 Entry arithmetic -/

/-- The operations on the entries of a matrix. -/
class Scalar (α : Type u) extends Add α, Sub α, Mul α, Div α, Zero α, One α, BEq α where
  /-- The value of the empty sum, from which every sum starts. -/
  emptySum : α

/-- The empty sum of doubles is minus zero: it is neutral also for minus zero, while `0 + -0`
is `0`. -/
instance : Scalar Float where
  zero := 0.0
  one := 1.0
  emptySum := -0.0

namespace Scalar

variable {α : Type u} [Scalar α]

/-- Whether an entry counts as zero. For doubles both zeros do and no NaN does. -/
def isZero (x : α) : Bool := x == 0

/-- The sum of some entries, added up from the first to the last. -/
def sum (xs : List α) : α := xs.foldl (· + ·) emptySum

end Scalar

/-- Entries in `m` rows and `n` columns. -/
abbrev Grid (m n : Nat) (α : Type u) := Vector (Vector α n) m

namespace Grid

variable {α : Type u} {m n k : Nat}

/-! ## §2 Entries -/

def entry (a : Grid m n α) (i : Fin m) (j : Fin n) : α := a[i][j]

def ofFn (f : Fin m → Fin n → α) : Grid m n α := Vector.ofFn fun i => Vector.ofFn (f i)

@[simp] theorem entry_ofFn (f : Fin m → Fin n → α) (i : Fin m) (j : Fin n) :
    (ofFn f).entry i j = f i j := by
  simp [entry, ofFn]

theorem ext_entry {a b : Grid m n α} (h : ∀ i j, a.entry i j = b.entry i j) : a = b :=
  Vector.ext fun i hi => Vector.ext fun j hj => h ⟨i, hi⟩ ⟨j, hj⟩

/-- All entries, row after row. -/
def entries (a : Grid m n α) : Array α := a.flatten.toArray

@[simp] theorem size_entries (a : Grid m n α) : a.entries.size = m * n := by
  simp [entries]

/-- The entry in row `i` and column `j` comes after `i` whole rows and `j` further entries. -/
theorem getD_entries (a : Grid m n α) (i : Fin m) (j : Fin n) (d : α) :
    a.entries.getD (i * n + j) d = a.entry i j := by
  have hn : 0 < n := Nat.zero_lt_of_lt j.isLt
  have hlt : i.val * n + j.val < m * n := by
    calc i.val * n + j.val < i.val * n + n := Nat.add_lt_add_left j.isLt _
      _ = (i.val + 1) * n := by rw [Nat.add_mul, Nat.one_mul]
      _ ≤ m * n := Nat.mul_le_mul_right n i.isLt
  have hdiv : (i.val * n + j.val) / n = i.val := by
    rw [Nat.mul_comm, Nat.mul_add_div hn, Nat.div_eq_of_lt j.isLt, Nat.add_zero]
  have hmod : (i.val * n + j.val) % n = j.val := by
    rw [Nat.mul_comm, Nat.mul_add_mod, Nat.mod_eq_of_lt j.isLt]
  have hsize : i.val * n + j.val < a.entries.size := by simpa using hlt
  have hget : a.entries[i.val * n + j.val] = (Vector.flatten a)[i.val * n + j.val] := by
    simp [entries]
  rw [Array.getD_eq_getD_getElem?, Array.getElem?_eq_getElem hsize, Option.getD_some, hget,
    Vector.getElem_flatten]
  simp only [hdiv, hmod, entry, Fin.getElem_fin]

/-! ## §3 Algebra -/

def transpose (a : Grid m n α) : Grid n m α := ofFn fun j i => a.entry i j

@[simp] theorem entry_transpose (a : Grid m n α) (j : Fin n) (i : Fin m) :
    a.transpose.entry j i = a.entry i j := by
  simp [transpose]

def identity [Scalar α] (m : Nat) : Grid m m α := ofFn fun i j => if i = j then 1 else 0

@[simp] theorem entry_identity [Scalar α] (i j : Fin m) :
    (identity m : Grid m m α).entry i j = if i = j then 1 else 0 := by
  simp [identity]

/-- The product: each entry is a sum of products along a row and a column, in their order. -/
def mul [Scalar α] (a : Grid m k α) (b : Grid k n α) : Grid m n α :=
  ofFn fun i j => Scalar.sum ((List.finRange k).map fun l => a.entry i l * b.entry l j)

@[simp] theorem entry_mul [Scalar α] (a : Grid m k α) (b : Grid k n α) (i : Fin m)
    (j : Fin n) :
    (a.mul b).entry i j =
      Scalar.sum ((List.finRange k).map fun l => a.entry i l * b.entry l j) := by
  simp [mul]

end Grid

end MatrixCalc
