import MatrixCalc.Proofs.Storage.Access

/-!
# New values

The loops that fill an array of their own: an identity, a transpose and a product. They read and
write inside of their matrices and give the values of the grids (`unit_eq`, `transposed_entries`,
`product_entries`). The constructor of the identity is such a loop as well. It can be asked for more
entries than a word counts, and then it can stop outside of the matrix (`identity_stops`).

§1 zeros and transposes · §2 identities · §3 products
-/

namespace MatrixCalc

open DenseMatrix (wordCount word)

variable {α : Type} [Scalar α]

/-! ## §1 Zeros and transposes -/

namespace Storage

def zeroed (s : Shape) : Array α := Array.replicate (word (s.rows * s.cols)) 0

def transposed (s : Shape) (values : Array α) : Except Failure (Array α) :=
  (List.range' 0 s.rows).foldlM (fun result i =>
    (List.range' 0 s.cols).foldlM (fun result j => do
      store s.transpose result j i (← fetch s values i j)) result) (zeroed s.transpose)

end Storage

namespace Grid

variable {m n k : Nat}

theorem zeroed_eq (hsize : m * n < wordCount) :
    Storage.zeroed ⟨m, n⟩ = (ofFn fun _ _ => 0 : Grid m n α).entries := by
  refine eq_entries ?_ fun i j => ?_
  · rw [Storage.zeroed, Array.size_replicate, DenseMatrix.word_of_lt hsize]
  · rw [Storage.zeroed, DenseMatrix.word_of_lt hsize, Array.getElem?_replicate,
      if_pos (position_lt i j), entry_ofFn]

/-- The transpose after `i` rows and `j` entries of the next. -/
def transposeUpTo (g : Grid m n α) (i j : Nat) : Grid n m α :=
  ofFn fun j' i' => if i'.val < i ∨ i'.val = i ∧ j'.val < j then g.entry i' j' else 0

theorem entry_transposeUpTo (g : Grid m n α) (i j : Nat) (j' : Fin n) (i' : Fin m) :
    (g.transposeUpTo i j).entry j' i' =
      if i'.val < i ∨ i'.val = i ∧ j'.val < j then g.entry i' j' else 0 :=
  entry_ofFn _ _ _

theorem setEntry_transposeUpTo (g : Grid m n α) (i : Fin m) (j : Fin n) :
    (g.transposeUpTo i j).setEntry j i (g.entry i j) = g.transposeUpTo i (j + 1) := by
  refine ext_entry fun j' i' => ?_
  rw [entry_setEntry, entry_transposeUpTo, entry_transposeUpTo]
  by_cases hplace : j' = j ∧ i' = i
  · rw [if_pos hplace, if_pos (by simp [hplace.1, hplace.2]), hplace.1, hplace.2]
  · have hsame : i'.val = i ∧ j'.val < j + 1 ↔ i'.val = i ∧ j'.val < j := by
      refine and_congr_right fun hi => ?_
      have hne : j'.val ≠ j.val := fun hj => hplace ⟨Fin.ext hj, Fin.ext hi⟩
      omega
    rw [if_neg hplace]
    simp only [hsame]

theorem transposeUpTo_row (g : Grid m n α) (i : Nat) :
    g.transposeUpTo i n = g.transposeUpTo (i + 1) 0 := by
  refine ext_entry fun j' i' => ?_
  rw [entry_transposeUpTo, entry_transposeUpTo]
  have hsame : (i'.val < i ∨ i'.val = i ∧ j'.val < n) ↔
      (i'.val < i + 1 ∨ i'.val = i + 1 ∧ j'.val < 0) := by
    have hj := j'.isLt
    omega
  simp only [hsame]

end Grid

namespace Storage

variable {m n k : Nat}

theorem transposed_entries (hsize : m * n < wordCount) (g : Grid m n α) :
    transposed ⟨m, n⟩ g.entries = .ok g.transpose.entries := by
  have htranspose : n * m < wordCount := by rwa [Nat.mul_comm]
  have hrow (i : Fin m) := foldlM_range'_zero (fun result j => do
      store ⟨n, m⟩ result j i (← fetch ⟨m, n⟩ g.entries i j))
    (fun j => (g.transposeUpTo i j).entries) fun j : Fin n => by
      rw [fetch_entries hsize]
      show store _ _ _ _ _ = _
      rw [store_entries htranspose, Grid.setEntry_transposeUpTo]
  simp only [Grid.transposeUpTo_row] at hrow
  have hloop := foldlM_range'_zero (fun result i => (List.range' 0 n).foldlM (fun result j => do
      store ⟨n, m⟩ result j i (← fetch ⟨m, n⟩ g.entries i j)) result)
    (fun i => (g.transposeUpTo i 0).entries) hrow
  have hstart : g.transposeUpTo 0 0 = Grid.ofFn fun _ _ => 0 :=
    Grid.ext_entry fun j i => by simp [Grid.entry_transposeUpTo]
  have hend : g.transposeUpTo m 0 = g.transpose :=
    Grid.ext_entry fun j i => by simp [Grid.entry_transposeUpTo]
  rw [hstart, hend, ← Grid.zeroed_eq htranspose] at hloop
  exact hloop

/-! ## §2 Identities -/

def unit (size : Nat) : Except Failure (Array α) :=
  (List.range' 0 size).foldlM (fun values i => store ⟨size, size⟩ values i i 1)
    (zeroed ⟨size, size⟩)

theorem unit_eq (hsize : m * m < wordCount) :
    unit m = .ok (Grid.identity m : Grid m m α).entries := by
  -- ones in the rows that the loop has passed
  have hstep (k : Fin m) :
      (Grid.ofFn fun i j => if i = j ∧ i.val < k then 1 else 0 : Grid m m α).setEntry k k 1 =
        Grid.ofFn fun i j => if i = j ∧ i.val < k + 1 then 1 else 0 := by
    refine Grid.ext_entry fun i j => ?_
    rw [Grid.entry_setEntry, Grid.entry_ofFn, Grid.entry_ofFn]
    by_cases hplace : i = k ∧ j = k
    · rw [if_pos hplace, if_pos (by simp [hplace.1, hplace.2])]
    · have hsame : i = j ∧ i.val < k + 1 ↔ i = j ∧ i.val < k := by
        refine and_congr_right fun hij => ?_
        have hne : i.val ≠ k.val := fun hk => hplace ⟨Fin.ext hk, hij ▸ Fin.ext hk⟩
        omega
      rw [if_neg hplace]
      simp only [hsame]
  have hloop := foldlM_range'_zero (fun values i => store ⟨m, m⟩ values i i (1 : α))
    (fun k => (Grid.ofFn fun i j => if i = j ∧ i.val < k then 1 else 0 : Grid m m α).entries)
    fun k : Fin m => by rw [store_entries hsize, hstep]
  simp only [Nat.not_lt_zero, and_false, if_false, Fin.is_lt, and_true] at hloop
  rw [unit, Grid.zeroed_eq hsize]
  exact hloop

/-- The identity matrix, where a write outside of the zeros stops the program. -/
def identity (size : Nat) : Except Failure (DenseMatrix α) :=
  if size = 0 then .error (.fault .emptyMatrix)
  else do return ⟨⟨size, size⟩, ← unit size⟩

/-- What is written without stopping is what the constructor writes. -/
theorem eq_identity {size : Nat} {e : DenseMatrix α} (h : identity size = .ok e) :
    DenseMatrix.identity size = .ok e := by
  rw [identity] at h
  rw [DenseMatrix.identity]
  by_cases hzero : size = 0
  · rw [if_pos hzero] at h
    cases h
  · rw [if_neg hzero] at h ⊢
    cases hunit : (unit size : Except Failure (Array α)) with
    | error f =>
      rw [hunit] at h
      cases h
    | ok values =>
      rw [hunit] at h
      cases h
      rw [eq_of_foldlM (fun _ _ _ => eq_of_store) hunit]
      rfl

theorem identity_eq_ok (hpos : 0 < m) (hsize : m * m < wordCount) :
    identity m = .ok (DenseMatrix.ofGrid (Grid.identity m : Grid m m α)) := by
  rw [identity, if_neg hpos.ne', unit_eq hsize]
  rfl

/-- A size whose square is nothing in a word gives no place to write to. -/
theorem identity_stops {size : Nat} (hpos : 0 < size) (hword : word (size * size) = 0) :
    (identity size : Except Failure (DenseMatrix α)) = .error (.outside 0 0) := by
  obtain ⟨k, rfl⟩ := Nat.exists_eq_succ_of_ne_zero hpos.ne'
  rw [identity, if_neg hpos.ne', unit, List.range'_succ, List.foldlM_cons, store, fetch, zeroed]
  simp only [hword, Array.replicate_zero]
  rfl

/-! ## §3 Products -/

def dotProduct (s t : Shape) (left right : Array α) (i j : Nat) : Except Failure α :=
  (List.range' 0 s.cols).foldlM (fun sum l => do
    return sum + (← fetch s left i l) * (← fetch t right l j)) Scalar.emptySum

def product (s t : Shape) (left right : Array α) : Except Failure (Array α) :=
  (List.range' 0 s.rows).foldlM (fun values i => (List.range' 0 t.cols).foldlM (fun values j => do
    return values.push (← dotProduct s t left right i j)) values) #[]

theorem dotProduct_entries (hleft : m * k < wordCount) (hright : k * n < wordCount)
    (g : Grid m k α) (h : Grid k n α) (i : Fin m) (j : Fin n) :
    dotProduct ⟨m, k⟩ ⟨k, n⟩ g.entries h.entries i j = .ok ((g.mul h).entry i j) := by
  let terms := (List.finRange k).map fun l => g.entry i l * h.entry l j
  have hlength : terms.length = k := by rw [List.length_map, List.length_finRange]
  have hloop := foldlM_range'_zero (fun sum l => do
      return sum + (← fetch ⟨m, k⟩ g.entries i l) * (← fetch ⟨k, n⟩ h.entries l j))
    (fun l => Scalar.sum (terms.take l)) fun l : Fin k => by
      have hterm : terms[l.val]? = some (g.entry i l * h.entry l j) := by
        have hlt : l.val < (List.finRange k).length := by rw [List.length_finRange]; exact l.isLt
        rw [List.getElem?_map, List.getElem?_eq_getElem hlt, List.getElem_finRange]
        rfl
      rw [fetch_entries hleft, fetch_entries hright, List.take_add_one, hterm, Scalar.sum,
        Scalar.sum, List.foldl_append]
      rfl
  rw [List.take_of_length_le hlength.le] at hloop
  rw [Grid.entry_mul]
  exact hloop

theorem product_entries (hleft : m * k < wordCount) (hright : k * n < wordCount)
    (g : Grid m k α) (h : Grid k n α) :
    product ⟨m, k⟩ ⟨k, n⟩ g.entries h.entries = .ok (g.mul h).entries := by
  obtain ⟨all, hall⟩ : ∃ all, (g.mul h).entries = all := ⟨_, rfl⟩
  -- at row `i` and column `j` as many entries are there as come before that place
  have hrow (i : Fin m) := foldlM_range'_zero (fun values j => do
      return values.push (← dotProduct ⟨m, k⟩ ⟨k, n⟩ g.entries h.entries i j))
    (fun j => all.extract 0 (i * n + j)) fun j : Fin n => by
      have hplace := (g.mul h).getElem?_entries i j
      rw [hall] at hplace
      obtain ⟨hlt, hentry⟩ := Array.getElem?_eq_some_iff.1 hplace
      rw [dotProduct_entries hleft hright, ← hentry, ← Nat.add_assoc,
        Array.extract_succ_right (Nat.succ_pos _) hlt]
      rfl
  simp only [Nat.add_zero, ← Nat.succ_mul] at hrow
  have hloop := foldlM_range'_zero (fun values i => (List.range' 0 n).foldlM (fun values j => do
      return values.push (← dotProduct ⟨m, k⟩ ⟨k, n⟩ g.entries h.entries i j)) values)
    (fun i => all.extract 0 (i * n)) hrow
  have hend : all.extract 0 (m * n) = all :=
    Array.extract_eq_self_of_le (by rw [← hall, Grid.size_entries])
  rw [Nat.zero_mul, Array.extract_zero, hend] at hloop
  rw [hall]
  exact hloop

end Storage

end MatrixCalc
