import MatrixCalc.Proofs.Algebra.RowOperations

/-!
# Echelon forms

The two echelon forms, for every arithmetic: they only ask which entries test equal to zero, and the
reduced form which of them are one. A sweep reaches them row by row. Before each step the rows above
the current one lead left of the current column and all others are zero there
(`Grid.EchelonUpTo`); a step that leaves the columns left of its pivot as they are, keeps the pivot
and clears what is below it completes one more row (`Grid.EchelonUpTo.step`).

§1 the forms · §2 the invariant of a sweep · §3 finite entries · §4 the row that is moved
-/

namespace MatrixCalc

universe u

namespace Grid

variable {α : Type u} [Scalar α] {m n : Nat}

/-! ## §1 The forms -/

/-- A row leads in a column if its first entry other than zero stands there. -/
structure LeadsAt (a : Grid m n α) (i : Fin m) (c : Fin n) : Prop where
  left : ∀ j < c, Scalar.isZero (a.entry i j) = true
  lead : Scalar.isZero (a.entry i c) = false

/-- Row echelon form: rows further down lead further right, all entries below the leading entry of a
row are zero, and rows of zeros come last. -/
structure IsEchelon (a : Grid m n α) : Prop where
  lead_lt : ∀ i k c d, i < k → a.LeadsAt i c → a.LeadsAt k d → c < d
  below : ∀ i k c, i < k → a.LeadsAt i c → Scalar.isZero (a.entry k c) = true
  zeros_last : ∀ i k, i < k → (∀ j, Scalar.isZero (a.entry i j) = true) →
    ∀ j, Scalar.isZero (a.entry k j) = true

/-- Reduced row echelon form: the leading entries are one, and all others in their columns zero. -/
structure IsReducedEchelon (a : Grid m n α) : Prop extends IsEchelon a where
  lead_eq_one : ∀ i c, a.LeadsAt i c → a.entry i c = 1
  others : ∀ i k c, k ≠ i → a.LeadsAt i c → Scalar.isZero (a.entry k c) = true

/-- Exactly one entry of a row is its first entry other than zero. -/
theorem LeadsAt.unique {a : Grid m n α} {i : Fin m} {c d : Fin n} (hc : a.LeadsAt i c)
    (hd : a.LeadsAt i d) : c = d := by
  rcases lt_trichotomy c d with hcd | rfl | hcd
  · exact absurd (hd.left c hcd) (Bool.eq_false_iff.1 hc.lead)
  · rfl
  · exact absurd (hc.left d hcd) (Bool.eq_false_iff.1 hd.lead)

/-- A row is zero or it leads somewhere. -/
theorem zero_or_leadsAt (a : Grid m n α) (i : Fin m) :
    (∀ j, Scalar.isZero (a.entry i j) = true) ∨ ∃ c, a.LeadsAt i c := by
  by_cases h : ∃ c, Scalar.isZero (a.entry i c) = false
  · obtain ⟨c, hc, hmin⟩ := WellFounded.has_min (wellFounded_lt (α := Fin n))
      {c | Scalar.isZero (a.entry i c) = false} h
    exact .inr ⟨c, fun j hj => Bool.not_eq_false _ ▸ fun hzero => hmin j hzero hj, hc⟩
  · exact .inl fun j => Bool.not_eq_false _ ▸ fun hzero => h ⟨j, hzero⟩

/-! ## §2 The invariant of a sweep -/

/-- The rows before `row` lead left of `col` and have zeros below them up to there; the others are
zero left of `col`. -/
structure EchelonUpTo (a : Grid m n α) (row col : Nat) : Prop where
  leads : ∀ i : Fin m, i.val < row → ∃ c : Fin n, c.val < col ∧ a.LeadsAt i c ∧
    ∀ k, i < k → ∀ j ≤ c, Scalar.isZero (a.entry k j) = true
  zero : ∀ i : Fin m, row ≤ i.val → ∀ j : Fin n, j.val < col → Scalar.isZero (a.entry i j) = true

theorem echelonUpTo_zero (a : Grid m n α) : a.EchelonUpTo 0 0 :=
  ⟨fun _ h => absurd h (Nat.not_lt_zero _), fun _ _ _ h => absurd h (Nat.not_lt_zero _)⟩

variable {a b : Grid m n α} {row : Fin m} {col : Nat} {p : Pivot m n}

/-- From the current row on, everything left of the pivot is zero. -/
theorem EchelonUpTo.zero_left (h : a.EchelonUpTo row col) (hp : a.findPivot? row col = some p)
    (i : Fin m) (hi : row ≤ i) (j : Fin n) (hj : j < p.column) :
    Scalar.isZero (a.entry i j) = true := by
  obtain ⟨-, -, -, -, -, hbetween⟩ := findPivot?_eq_some hp
  by_cases hjc : j.val < col
  · exact h.zero i hi j hjc
  · exact hbetween j (Nat.not_lt.1 hjc) hj i hi

/-- A step that clears what is below the pivot and leaves what is left of it completes one more
row. -/
theorem EchelonUpTo.step (h : a.EchelonUpTo row col) (hp : a.findPivot? row col = some p)
    (hleft : ∀ i, ∀ j < p.column, Scalar.isZero (b.entry i j) = Scalar.isZero (a.entry i j))
    (hlead : Scalar.isZero (b.entry row p.column) = false)
    (hbelow : ∀ i, row < i → Scalar.isZero (b.entry i p.column) = true) :
    b.EchelonUpTo (row + 1) (p.column + 1) := by
  obtain ⟨-, -, hcol, -, -, -⟩ := findPivot?_eq_some hp
  have hzero (i : Fin m) (hi : row ≤ i) (j : Fin n) (hj : j < p.column) :
      Scalar.isZero (b.entry i j) = true :=
    (hleft i j hj).trans (h.zero_left hp i hi j hj)
  have hcleared (i : Fin m) (hi : row < i) (j : Fin n) (hj : j ≤ p.column) :
      Scalar.isZero (b.entry i j) = true := by
    rcases hj.lt_or_eq with hj | rfl
    · exact hzero i hi.le j hj
    · exact hbelow i hi
  refine ⟨fun i hi => ?_, fun i hi j hj => hcleared i hi j (Nat.lt_succ_iff.1 hj)⟩
  rcases Nat.lt_succ_iff_lt_or_eq.1 hi with hi | hi
  · obtain ⟨c, hc, hlead, hzeros⟩ := h.leads i hi
    have hcp : c < p.column := hc.trans_le hcol
    refine ⟨c, by omega, ⟨fun j hj => ?_, ?_⟩, fun k hk j hj => ?_⟩
    · exact (hleft i j (hj.trans hcp)).trans (hlead.left j hj)
    · exact (hleft i c hcp).trans hlead.lead
    · exact (hleft k j (hj.trans_lt hcp)).trans (hzeros k hk j hj)
  · have hi : i = row := Fin.ext hi
    subst hi
    exact ⟨p.column, Nat.lt_succ_self _, ⟨hzero i le_rfl, hlead⟩, hcleared⟩

/-- Where no pivot is left, the rows from the current one on are zero. -/
theorem EchelonUpTo.zero_of_stop {row : Nat} (h : a.EchelonUpTo row col)
    (hstop : ∀ hrow : row < m, a.findPivot? ⟨row, hrow⟩ col = none) (i : Fin m) (hi : row ≤ i.val)
    (j : Fin n) : Scalar.isZero (a.entry i j) = true := by
  by_cases hj : j.val < col
  · exact h.zero i hi j hj
  · exact findPivot?_eq_none (hstop (lt_of_le_of_lt hi i.isLt)) j (Nat.not_lt.1 hj) j.isLt i hi

/-- With all rows from the current one on zero the form is reached. -/
theorem EchelonUpTo.isEchelon {row : Nat} (h : a.EchelonUpTo row col)
    (hzero : ∀ i : Fin m, row ≤ i.val → ∀ j, Scalar.isZero (a.entry i j) = true) :
    a.IsEchelon := by
  have hbelow {i k : Fin m} {c : Fin n} (hik : i < k) (hc : a.LeadsAt i c) (j : Fin n)
      (hj : j ≤ c) : Scalar.isZero (a.entry k j) = true := by
    by_cases hi : i.val < row
    · obtain ⟨d, -, hd, hzeros⟩ := h.leads i hi
      exact hzeros k hik j (hc.unique hd ▸ hj)
    · exact hzero k (by omega) j
  refine ⟨fun i k c d hik hc hd => ?_, fun i k c hik hc => hbelow hik hc c le_rfl,
    fun i k hik hi => ?_⟩
  · by_contra hcd
    exact Bool.eq_false_iff.1 hd.lead (hbelow hik hc d (not_lt.1 hcd))
  · by_cases hrow : i.val < row
    · obtain ⟨c, -, hc, -⟩ := h.leads i hrow
      exact absurd (hi c) (Bool.eq_false_iff.1 hc.lead)
    · exact hzero k (by omega)

/-- In a grid in echelon form, a pivot is found where it is moved to, and its row leads there. -/
theorem leadsAt_of_findPivot? (hform : a.IsEchelon) (h : a.EchelonUpTo row col)
    (hp : a.findPivot? row col = some p) : p.source = row ∧ a.LeadsAt row p.column := by
  obtain ⟨-, hsource, -, hlead, htop, -⟩ := findPivot?_eq_some hp
  have hleads : a.LeadsAt p.source p.column :=
    ⟨fun j hj => h.zero_left hp p.source hsource j hj, hlead⟩
  rcases hsource.eq_or_lt with rfl | hlt
  · exact ⟨rfl, hleads⟩
  -- a row above that one would lead further left, or be a row of zeros above one that is not
  exfalso
  rcases a.zero_or_leadsAt row with hzero | ⟨c, hc⟩
  · exact Bool.eq_false_iff.1 hlead (hform.zeros_last row p.source hlt hzero p.column)
  · have hcp : c < p.column := hform.lead_lt row p.source c p.column hlt hc hleads
    exact Bool.eq_false_iff.1 hc.lead (h.zero_left hp row le_rfl c hcp)

end Grid

/-! ## §3 Finite entries -/

namespace Scalar

/-- A kind of entries some of which are finite. -/
class HasFinite (α : Type u) where
  /-- The entry is neither infinite nor undefined. -/
  IsFinite : α → Prop

end Scalar

open Scalar (HasFinite)

/-- All entries are finite. -/
def Grid.IsFinite {α : Type u} [HasFinite α] {m n : Nat} (a : Grid m n α) : Prop :=
  ∀ i j, HasFinite.IsFinite (a.entry i j)

/-- After every step of some stages the working copy is finite. -/
def Sweep.StaysFinite {α : Type u} [HasFinite α] {m n : Nat}
    (step : Grid m n α → Pivot m n → Grid m n α) (s : Sweep m n α) : Prop :=
  ∀ st ∈ s.stages, (step st.before st.pivot).IsFinite

/-! ## §4 The row that is moved -/

/-- The grid with the pivot's row moved to its place. -/
def Stage.moved {α : Type u} {m n : Nat} (st : Stage m n α) : Grid m n α :=
  st.before.swapRows st.pivot.target st.pivot.source

namespace Grid

variable {α : Type u} {m n : Nat} {a : Grid m n α} {p : Pivot m n}

theorem entry_moved_target (a : Grid m n α) (p : Pivot m n) (j : Fin n) :
    (⟨a, p⟩ : Stage m n α).moved.entry p.target j = a.entry p.source j := by
  rw [Stage.moved, entry_swapRows, if_pos rfl]

theorem IsFinite.moved [HasFinite α] (h : a.IsFinite) (p : Pivot m n) :
    (⟨a, p⟩ : Stage m n α).moved.IsFinite := by
  intro i j
  rw [Stage.moved, entry_swapRows_eq]
  exact h _ j

variable [Scalar α]

/-- From a row on, a column has only zeros. -/
def ZeroBelow (a : Grid m n α) (row : Nat) (j : Fin n) : Prop :=
  ∀ i : Fin m, row ≤ i.val → Scalar.isZero (a.entry i j) = true

/-- Exchanging two rows from a row on leaves the column zero there. -/
theorem ZeroBelow.swapRows {row : Nat} {j : Fin n} (h : a.ZeroBelow row j) {r s : Fin m}
    (hr : row ≤ r.val) (hs : row ≤ s.val) : (a.swapRows r s).ZeroBelow row j := by
  intro i hi
  rw [entry_swapRows]
  refine h _ ?_
  split
  · exact hs
  split
  · exact hr
  · exact hi

theorem zeroBelow_moved_iff (hsource : p.target ≤ p.source) (j : Fin n) :
    (⟨a, p⟩ : Stage m n α).moved.ZeroBelow p.target j ↔ a.ZeroBelow p.target j := by
  refine ⟨fun h => ?_, fun h => h.swapRows le_rfl hsource⟩
  have hback : (a.swapRows p.target p.source).swapRows p.target p.source = a := by
    refine ext_entry fun i k => ?_
    rw [entry_swapRows_eq, entry_swapRows_eq, Equiv.swap_apply_self]
  rw [← hback]
  exact ZeroBelow.swapRows h le_rfl hsource

end Grid

end MatrixCalc
