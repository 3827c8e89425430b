import MatrixCalc.Proofs.Storage.Access
import MatrixCalc.Proofs.Algebra.Clearing

/-!
# Elimination in place

The two passes as loops that overwrite one array, and for the reduced form a second array of another
width beside it. Both stay inside of their matrices and leave the values of the grids at the end of
the sweeps (`echelonFrom_entries`, `reduceFrom_entries`). In every loop the rows that it has passed
are those of the grid after the step and the others those of the grid before it (`Grid.upTo`).

§1 rows passed by a loop · §2 below the pivot · §3 around the pivot · §4 the passes
-/

namespace MatrixCalc

open DenseMatrix (wordCount)

/-! ## §1 Rows passed by a loop -/

namespace Grid

variable {α : Type} {m n : Nat} {new old : Grid m n α}

/-- The first `r` rows of one grid and the others of another. -/
def upTo (r : Nat) (new old : Grid m n α) : Grid m n α :=
  ofFn fun i j => if i < r then new.entry i j else old.entry i j

theorem entry_upTo (r : Nat) (new old : Grid m n α) (i : Fin m) (j : Fin n) :
    (upTo r new old).entry i j = if i < r then new.entry i j else old.entry i j :=
  entry_ofFn _ _ _

theorem upTo_all (new old : Grid m n α) : upTo m new old = new :=
  ext_entry fun i j => by rw [entry_upTo, if_pos i.isLt]

/-- Rows that are the same in both grids may be counted among those passed. -/
theorem upTo_of_rows (r : Nat) (h : ∀ i : Fin m, i.val < r → ∀ j, new.entry i j = old.entry i j) :
    upTo r new old = old := by
  refine ext_entry fun i j => ?_
  rw [entry_upTo]
  split
  next hi => exact h i hi j
  next => rfl

/-- A row in which both grids agree is passed by leaving it. -/
theorem upTo_succ_of_row (k : Fin m) (h : ∀ j, new.entry k j = old.entry k j) :
    upTo (k + 1) new old = upTo k new old := by
  refine ext_entry fun i j => ?_
  rw [entry_upTo, entry_upTo]
  by_cases hik : i = k
  · rw [if_pos (by rw [hik]; exact Nat.lt_succ_self _), if_neg (by rw [hik]; exact Nat.lt_irrefl _),
      hik, h]
  · simp only [lt_succ_iff_of_ne hik]

/-- A row is passed by overwriting it. -/
theorem overwrite_upTo (k : Fin m) :
    (upTo k new old).overwrite k (new.entry k) n = upTo (k + 1) new old := by
  refine ext_entry fun i j => ?_
  rw [entry_overwrite, entry_upTo, entry_upTo]
  by_cases hik : i = k
  · rw [if_pos ⟨hik, j.isLt⟩, if_pos (by rw [hik]; exact Nat.lt_succ_self _), hik]
  · rw [if_neg fun h => hik h.1]
    simp only [lt_succ_iff_of_ne hik]

end Grid

namespace Storage

variable {α : Type} [Scalar α]

/-! ## §2 Below the pivot -/

/-- The rows below the pivot, which has been moved to its place, are reduced by it. Where the
quotient by the pivot is not zero, the entry below it is set to zero outright. -/
def clearBelow (s : Shape) (row col : Nat) (values : Array α) : Except Failure (Array α) := do
  let pivot ← fetch s values row col
  (List.range' (row + 1) (s.rows - (row + 1))).foldlM (fun values k => do
    let factor := (← fetch s values k col) / pivot
    if Scalar.isZero factor then return values
    else store s (← subtractRow s k row factor values) k col 0) values

section Below

variable {m n : Nat} (st : Stage m n α) {k : Fin m} (hk : st.pivot.target < k)

include hk

theorem entry_clearBelow_of_lt (j : Fin n) :
    (st.before.clearBelow st.pivot).entry k j =
      if j = st.pivot.column ∧ Scalar.isZero (st.factor k) = false then 0
      else Grid.reduceEntry (st.factor k) (st.moved.entry st.pivot.target j)
        (st.moved.entry k j) := by
  rw [Grid.entry_clearBelow, if_pos hk]
  rfl

theorem entry_clearBelow_of_isZero (hzero : Scalar.isZero (st.factor k) = true) (j : Fin n) :
    (st.before.clearBelow st.pivot).entry k j = st.moved.entry k j := by
  rw [entry_clearBelow_of_lt st hk, if_neg fun h => Bool.false_ne_true (h.2.symm.trans hzero),
    Grid.reduceEntry, if_pos hzero]

/-- Where the quotient is not zero, a multiple of the pivot's row is subtracted and a zero set. -/
theorem overwrite_clearBelow (hne : Scalar.isZero (st.factor k) = false) (x : Grid m n α) :
    (x.overwrite k (fun j => st.moved.entry k j - st.factor k * st.moved.entry st.pivot.target j)
      n).setEntry k st.pivot.column 0 =
        x.overwrite k ((st.before.clearBelow st.pivot).entry k) n := by
  refine Grid.ext_entry fun i j => ?_
  rw [Grid.entry_setEntry, Grid.entry_overwrite, Grid.entry_overwrite,
    entry_clearBelow_of_lt st hk]
  by_cases hik : i = k
  · by_cases hj : j = st.pivot.column
    · rw [if_pos ⟨hik, hj⟩, if_pos ⟨hik, j.isLt⟩, if_pos ⟨hj, hne⟩]
    · rw [if_neg fun h => hj h.2, if_pos ⟨hik, j.isLt⟩, if_pos ⟨hik, j.isLt⟩,
        if_neg fun h => hj h.1, Grid.reduceEntry, if_neg (Bool.eq_false_iff.1 hne)]
  · rw [if_neg fun h => hik h.1, if_neg fun h => hik h.1, if_neg fun h => hik h.1]

end Below

theorem clearBelow_entries {m n : Nat} (hsize : m * n < wordCount) (st : Stage m n α) :
    clearBelow ⟨m, n⟩ st.pivot.target st.pivot.column st.moved.entries =
      .ok (st.before.clearBelow st.pivot).entries := by
  obtain ⟨row, hrow⟩ : ∃ row, st.pivot.target = row := ⟨_, rfl⟩
  obtain ⟨new, hnew⟩ : ∃ new, st.before.clearBelow st.pivot = new := ⟨_, rfl⟩
  have habove (i : Fin m) (hi : i.val < row + 1) (j : Fin n) :
      new.entry i j = st.moved.entry i j := by
    rw [← hnew]
    exact Grid.entry_clearBelow_of_le _ (hrow ▸ Nat.le_of_lt_succ hi) j
  have hloop := foldlM_range' (fun values k => do
    let factor := (← fetch ⟨m, n⟩ values k st.pivot.column) / st.moved.entry row st.pivot.column
    if Scalar.isZero factor then return values
    else store ⟨m, n⟩ (← subtractRow ⟨m, n⟩ k row factor values) k st.pivot.column 0)
    (fun k => (Grid.upTo k new st.moved).entries) (row + 1) (m - (row + 1)) fun k hk hlt => by
      obtain ⟨k, rfl⟩ : ∃ i : Fin m, i.val = k := ⟨⟨k, by omega⟩, rfl⟩
      have hbelow : st.pivot.target < k := hrow ▸ Nat.lt_of_succ_le hk
      have hself (j : Fin n) : (Grid.upTo k new st.moved).entry k j = st.moved.entry k j := by
        rw [Grid.entry_upTo, if_neg (Nat.lt_irrefl _)]
      have hlead (j : Fin n) : (Grid.upTo k new st.moved).entry row j = st.moved.entry row j := by
        rw [Grid.entry_upTo, if_pos (Nat.lt_of_succ_le hk), habove _ (Nat.lt_succ_self _)]
      have hfactor : st.moved.entry k st.pivot.column / st.moved.entry row st.pivot.column =
          st.factor k := by
        rw [← hrow]
        rfl
      rw [fetch_entries hsize, hself]
      show (if Scalar.isZero (_ / _) then Except.ok _ else (subtractRow _ _ _ (_ / _) _).bind _) = _
      rw [hfactor]
      cases hzero : Scalar.isZero (st.factor k) with
      | true =>
        have hleft := entry_clearBelow_of_isZero st hbelow hzero
        rw [hnew] at hleft
        rw [if_pos rfl, Grid.upTo_succ_of_row k hleft]
      | false =>
        have hcleared := overwrite_clearBelow st hbelow hzero (Grid.upTo k new st.moved)
        rw [hnew, hrow] at hcleared
        rw [if_neg Bool.false_ne_true, subtractRow_entries hsize]
        simp only [hself, hlead]
        show store _ _ _ _ _ = _
        rw [store_entries hsize, hcleared, Grid.overwrite_upTo]
  have hend : row.val + 1 + (m - (row.val + 1)) = m := by omega
  rw [Grid.upTo_of_rows _ habove, hend, Grid.upTo_all] at hloop
  rw [clearBelow, hrow, hnew, fetch_entries hsize]
  exact hloop

/-! ## §3 Around the pivot -/

/-- The rows other than the pivot's, which has been divided by it, are reduced by it, in the matrix
and in the one beside it. -/
def reduceOthers (s : Shape) (row col : Nat) (pair : Array α × Array α) :
    Except Failure (Array α × Array α) :=
  ((List.range' 0 s.rows).filter (· ≠ row)).foldlM (fun pair k => do
    let factor ← fetch s pair.1 k col
    if Scalar.isZero factor then return pair
    else return (← subtractRow s k row factor pair.1,
      ← subtractRow ⟨s.rows, s.rows⟩ k row factor pair.2)) pair

end Storage

namespace RowOperation

variable {α : Type} [Scalar α] {m k : Nat}

/-- The grid after the first half of an operation: the rows are exchanged and the one at the target
is divided. -/
def divided (op : RowOperation m α) (x : Grid m k α) : Grid m k α :=
  (x.swapRows op.target op.source).overwrite op.target
    (fun j => (x.swapRows op.target op.source).entry op.target j / op.divisor) k

theorem entry_divided (op : RowOperation m α) (x : Grid m k α) (i : Fin m) (j : Fin k) :
    (op.divided x).entry i j = if i = op.target
      then (x.swapRows op.target op.source).entry op.target j / op.divisor
      else (x.swapRows op.target op.source).entry i j := by
  rw [divided, Grid.entry_overwrite]
  simp only [j.isLt, and_true]

/-- The second half leaves the divided row. -/
theorem entry_apply_target (op : RowOperation m α) (x : Grid m k α) (j : Fin k) :
    (op.apply x).entry op.target j = (op.divided x).entry op.target j := by
  rw [entry_apply, entry_divided, if_pos rfl, if_pos rfl]

/-- It subtracts a multiple of it from the others. -/
theorem entry_apply_of_ne (op : RowOperation m α) (x : Grid m k α) {i : Fin m} (hi : i ≠ op.target)
    (j : Fin k) :
    (op.apply x).entry i j = Grid.reduceEntry (op.factor i) ((op.divided x).entry op.target j)
      ((op.divided x).entry i j) := by
  rw [entry_apply, entry_divided, entry_divided, if_neg hi, if_pos rfl, if_neg hi]

end RowOperation

namespace Storage

variable {α : Type} [Scalar α] {m n : Nat}

/-- One row of a grid is reduced. -/
theorem subtractRow_upTo {l : Nat} (hsize : m * l < wordCount) (op : RowOperation m α)
    (x : Grid m l α) {k : Fin m} (hk : k ≠ op.target)
    (hfactor : Scalar.isZero (op.factor k) = false) :
    subtractRow ⟨m, l⟩ k op.target (op.factor k)
        (Grid.upTo k (op.apply x) (op.divided x)).entries =
      .ok (Grid.upTo (k + 1) (op.apply x) (op.divided x)).entries := by
  have hself (j : Fin l) :
      (Grid.upTo k (op.apply x) (op.divided x)).entry k j = (op.divided x).entry k j := by
    rw [Grid.entry_upTo, if_neg (Nat.lt_irrefl _)]
  have hlead (j : Fin l) : (Grid.upTo k (op.apply x) (op.divided x)).entry op.target j =
      (op.divided x).entry op.target j := by
    rw [Grid.entry_upTo, op.entry_apply_target, ite_self]
  have hnew : (fun j => (op.divided x).entry k j - op.factor k * (op.divided x).entry op.target j) =
      (op.apply x).entry k := by
    funext j
    rw [op.entry_apply_of_ne x hk, Grid.reduceEntry, if_neg (Bool.eq_false_iff.1 hfactor)]
  rw [subtractRow_entries hsize]
  simp only [hself, hlead]
  rw [hnew, Grid.overwrite_upTo]

/-- A row with a factor of zero is passed by leaving it, and so is the divided one. -/
theorem upTo_succ_apply {l : Nat} (op : RowOperation m α) (x : Grid m l α) {k : Fin m}
    (hk : k = op.target ∨ Scalar.isZero (op.factor k) = true) :
    Grid.upTo (k + 1) (op.apply x) (op.divided x) = Grid.upTo k (op.apply x) (op.divided x) := by
  refine Grid.upTo_succ_of_row k fun j => ?_
  by_cases htarget : k = op.target
  · rw [htarget, op.entry_apply_target]
  · rw [op.entry_apply_of_ne x htarget, Grid.reduceEntry, if_pos (hk.resolve_left htarget)]

theorem reduceOthers_entries (hsize : m * n < wordCount) (hshadow : m * m < wordCount)
    (g : Grid m n α) (h : Grid m m α) (p : Pivot m n) :
    reduceOthers ⟨m, n⟩ p.target p.column (((RowOperation.ofPivot g p).divided g).entries,
        ((RowOperation.ofPivot g p).divided h).entries) =
      .ok (((RowOperation.ofPivot g p).apply g).entries,
        ((RowOperation.ofPivot g p).apply h).entries) := by
  obtain ⟨op, hop⟩ : ∃ op, RowOperation.ofPivot g p = op := ⟨_, rfl⟩
  have htarget : p.target = op.target := by rw [← hop]; rfl
  have hfactor (k : Fin m) (hk : k ≠ op.target) :
      (op.divided g).entry k p.column = op.factor k := by
    rw [op.entry_divided, if_neg hk, ← hop]
    rfl
  rw [reduceOthers, List.foldlM_filter, hop, htarget]
  have hloop := foldlM_range'_zero (fun (pair : Array α × Array α) k =>
    if decide (k ≠ op.target) then do
      let factor ← fetch ⟨m, n⟩ pair.1 k p.column
      if Scalar.isZero factor then return pair
      else return (← subtractRow ⟨m, n⟩ k op.target factor pair.1,
        ← subtractRow ⟨m, m⟩ k op.target factor pair.2)
    else pure pair)
    (fun k => ((Grid.upTo k (op.apply g) (op.divided g)).entries,
      (Grid.upTo k (op.apply h) (op.divided h)).entries)) fun k : Fin m => by
      by_cases hk : k = op.target
      · rw [if_neg (by simp [hk]), upTo_succ_apply op g (.inl hk), upTo_succ_apply op h (.inl hk)]
        rfl
      rw [if_pos (by simpa [Fin.ext_iff] using hk), fetch_entries hsize, Grid.entry_upTo,
        if_neg (Nat.lt_irrefl _), hfactor k hk]
      show (if Scalar.isZero (op.factor k) then Except.ok _ else
        (subtractRow _ _ _ (op.factor k) _).bind fun _ => _) = _
      cases hzero : Scalar.isZero (op.factor k) with
      | true =>
        rw [if_pos rfl, upTo_succ_apply op g (.inr hzero), upTo_succ_apply op h (.inr hzero)]
      | false =>
        rw [if_neg Bool.false_ne_true, subtractRow_upTo hsize op g hk hzero]
        show (subtractRow _ _ _ (op.factor k) _).bind _ = _
        rw [subtractRow_upTo hshadow op h hk hzero]
        rfl
  simp only [Grid.upTo_all, Grid.upTo_of_rows 0 fun i hi => absurd hi (Nat.not_lt_zero _)] at hloop
  exact hloop

/-! ## §4 The passes -/

/-- The pass to the echelon form from a row and a column on. -/
def echelonFrom (s : Shape) (row col : Nat) (values : Array α) : Except Failure (Array α) :=
  if row < s.rows ∧ col < s.cols then do
    match ← searchPivot s values row col with
    | none => return values
    | some (r, c) =>
      let values ← swapRows s row r values
      let values ← clearBelow s row c values
      echelonFrom s (row + 1) (c + 1) values
  else return values
termination_by s.rows - row

/-- The pass to the reduced form from a row and a column on, with every row operation repeated on a
square matrix of as many rows. -/
def reduceFrom (s : Shape) (row col : Nat) (pair : Array α × Array α) :
    Except Failure (Array α × Array α) :=
  if row < s.rows ∧ col < s.cols then do
    match ← searchPivot s pair.1 row col with
    | none => return pair
    | some (r, c) =>
      let work ← swapRows s row r pair.1
      let shadow ← swapRows ⟨s.rows, s.rows⟩ row r pair.2
      let pivot ← fetch s work row c
      let work ← divideRow s row pivot work
      let shadow ← divideRow ⟨s.rows, s.rows⟩ row pivot shadow
      let pair ← reduceOthers s row c (work, shadow)
      reduceFrom s (row + 1) (c + 1) pair
  else return pair
termination_by s.rows - row

/-- What a pass finds where the sweep goes on. -/
theorem searchPivot_of_pivot (hsize : m * n < wordCount) {g : Grid m n α} {row col : Nat}
    {p : Pivot m n} (hrow : row < m) (hp : g.findPivot? ⟨row, hrow⟩ col = some p) :
    row = p.target.val ∧ col < n ∧
      searchPivot ⟨m, n⟩ g.entries row col = .ok (some (p.source.val, p.column.val)) := by
  obtain ⟨htarget, -, hcol, -⟩ := Grid.findPivot?_eq_some hp
  have hsearch := searchPivot_entries hsize g ⟨row, hrow⟩ col
  rw [hp] at hsearch
  exact ⟨by rw [htarget], hcol.trans_lt p.column.isLt, hsearch⟩

/-- The pass to the echelon form stays inside of the matrix and ends where the sweep ends. -/
theorem echelonFrom_entries (hsize : m * n < wordCount) (row col : Nat) (g : Grid m n α) :
    echelonFrom ⟨m, n⟩ row col g.entries =
      .ok (Sweep.run Grid.clearBelow row col g).final.entries := by
  induction row, col, g using @Sweep.run_induction α _ m n Grid.clearBelow with
  | stop row col g hstop =>
    rw [Sweep.run_of_stop hstop, echelonFrom]
    split
    next h =>
      have hsearch := searchPivot_entries hsize g ⟨row, h.1⟩ col
      rw [hstop h.1] at hsearch
      rw [hsearch]
      rfl
    next => rfl
  | next row col g p hrow hp ih =>
    obtain ⟨htarget, hcol, hsearch⟩ := searchPivot_of_pivot hsize hrow hp
    have hclear : clearBelow ⟨m, n⟩ p.target p.column (g.swapRows p.target p.source).entries =
        .ok (g.clearBelow p).entries := clearBelow_entries hsize ⟨g, p⟩
    rw [Sweep.run_of_pivot hrow hp, echelonFrom, if_pos ⟨hrow, hcol⟩, hsearch]
    subst htarget
    show (swapRows _ _ _ _).bind _ = _
    rw [swapRows_entries hsize]
    show (clearBelow _ _ _ _).bind _ = _
    rw [hclear]
    exact ih

/-- The pass to the reduced form stays inside of both matrices and ends where the sweep ends, with
the operations of the sweep carried out on the second matrix. -/
theorem reduceFrom_entries (hsize : m * n < wordCount) (hshadow : m * m < wordCount)
    (row col : Nat) (g : Grid m n α) (h : Grid m m α) :
    let s := Sweep.run (fun b p => (RowOperation.ofPivot b p).apply b) row col g
    reduceFrom ⟨m, n⟩ row col (g.entries, h.entries) =
      .ok (s.final.entries, (s.stages.foldl
        (fun x st => (RowOperation.ofPivot st.before st.pivot).apply x) h).entries) := by
  intro s
  induction row, col, g using
    @Sweep.run_induction α _ m n (fun b p => (RowOperation.ofPivot b p).apply b)
    generalizing h with
  | stop row col g hstop =>
    have hs : s = ⟨[], g⟩ := Sweep.run_of_stop hstop
    rw [hs, reduceFrom]
    split
    next hin =>
      have hsearch := searchPivot_entries hsize g ⟨row, hin.1⟩ col
      rw [hstop hin.1] at hsearch
      rw [hsearch]
      rfl
    next => rfl
  | next row col g p hrow hp ih =>
    obtain ⟨htarget, hcol, hsearch⟩ := searchPivot_of_pivot hsize hrow hp
    have hs : s = _ := Sweep.run_of_pivot hrow hp
    rw [hs, reduceFrom, if_pos ⟨hrow, hcol⟩, hsearch]
    subst htarget
    show (swapRows _ _ _ _).bind _ = _
    rw [swapRows_entries hsize]
    show (swapRows _ _ _ _).bind _ = _
    rw [swapRows_entries hshadow]
    show (fetch _ _ _ _).bind _ = _
    rw [fetch_entries hsize]
    show (divideRow _ _ _ _).bind _ = _
    rw [divideRow_entries hsize]
    show (divideRow _ _ _ _).bind _ = _
    rw [divideRow_entries hshadow]
    show (reduceOthers _ _ _ (((RowOperation.ofPivot g p).divided g).entries,
      ((RowOperation.ofPivot g p).divided h).entries)).bind _ = _
    rw [reduceOthers_entries hsize hshadow]
    exact ih _

end Storage

end MatrixCalc
