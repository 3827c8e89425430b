import Mathlib.Data.List.Induction
import MatrixCalc.Proofs.Algebra.Linear
import MatrixCalc.Proofs.Outline.Ordinary

/-!
# Chains of differences

Products with `-` between them. A `-` that arrives reduces one operator only. If that is the `*` of
the product before it, the `-` before that product goes on waiting, and whatever comes later is
taken from the product and not from what stands before it: `a - b * c - d` is `a - (b * c - d)`. So
a chain is taken from left to right if none of its products but the first and the last has two or
more factors, and if one has, there are entries for which it makes a difference
(`difference_value`).

§1 products and differences · §2 arrivals · §3 the ordinary reading · §4 chains that differ ·
§5 the value of a chain
-/

namespace MatrixCalc

universe u

/-! ## §1 Products and differences -/

section Scalar

variable {α : Type u} [Scalar α]

/-- Factors with `*` between them. -/
structure Product (α : Type u) [Scalar α] where
  first : Factor α
  others : List (Factor α)

/-- A product and, with a `-` before each, the products that are to be taken from it. -/
structure Difference (α : Type u) [Scalar α] where
  first : Product α
  taken : List (Product α)

namespace Product

def reading (p : Product α) : Tree (DenseMatrix α) :=
  p.others.foldl (fun t x => .binary .times t (.leaf x.value)) (.leaf p.first.value)

def takeAll (s : Tree (DenseMatrix α)) (ps : List (Product α)) : Tree (DenseMatrix α) :=
  ps.foldl (fun s p => .binary .minus s p.reading) s

/-- The products taken away as the stacks do it: from a product of two or more factors all later
ones are taken first. -/
def takeNested (s : Tree (DenseMatrix α)) : List (Product α) → Tree (DenseMatrix α)
  | [] => s
  | p :: ps =>
    if p.others.isEmpty then takeNested (.binary .minus s p.reading) ps
    else .binary .minus s (takeNested p.reading ps)

variable {p q : Product α} {s : Tree (DenseMatrix α)} {ps : List (Product α)}

theorem takeNested_single (h : p.others = []) :
    takeNested s (p :: ps) = takeNested (.binary .minus s p.reading) ps := by
  rw [takeNested, if_pos (List.isEmpty_iff.2 h)]

theorem takeNested_several (h : p.others ≠ []) :
    takeNested s (p :: ps) = .binary .minus s (takeNested p.reading ps) := by
  rw [takeNested, if_neg fun hempty => h (List.isEmpty_iff.1 hempty)]

/-- From the last product nothing is taken. -/
theorem takeNested_last (s : Tree (DenseMatrix α)) (p : Product α) :
    takeNested s [p] = .binary .minus s p.reading := by
  by_cases h : p.others = []
  · exact takeNested_single h
  · exact takeNested_several h

theorem takeNested_append {as : List (Product α)} (h : ∀ p ∈ as, p.others = []) :
    takeNested s (as ++ ps) = takeNested (takeAll s as) ps := by
  induction as generalizing s with
  | nil => rfl
  | cons p as ih =>
    obtain ⟨hp, has⟩ := List.forall_mem_cons.1 h
    rw [List.cons_append, takeNested_single hp]
    exact ih has

end Product

namespace Difference

def level (d : Difference α) : FlatLevel α :=
  ⟨d.first.first, d.first.others.map (fun x => (.times, x)) ++
    d.taken.flatMap fun p => (.minus, p.first) :: p.others.map fun x => (.times, x)⟩

def fromLeft (d : Difference α) : Tree (DenseMatrix α) := Product.takeAll d.first.reading d.taken

def nested (d : Difference α) : Tree (DenseMatrix α) := Product.takeNested d.first.reading d.taken

end Difference

/-! ## §2 Arrivals -/

def Product.plainRest (p : Product α) : List (Item α) :=
  p.others.flatMap fun x => [.operator (.binary .times), .operand x.value]

def Product.plainItems (p : Product α) : List (Item α) := .operand p.first.value :: p.plainRest

theorem Difference.plainItems_level (d : Difference α) :
    d.level.plainItems =
      d.first.plainItems ++
        d.taken.flatMap fun p => .operator (.binary .minus) :: p.plainItems := by
  simp [FlatLevel.plainItems, level, Product.plainItems, Product.plainRest, List.flatMap_map,
    List.flatMap_assoc]

namespace Outline

/-- `Arrived p o o'`: on an outline `o` the product `p` has arrived. Its last factor is not
multiplied yet. -/
inductive Arrived (p : Product α) (o : Outline α) : Outline α → Prop where
  | single (h : p.others = []) : Arrived p o ⟨o.operators, p.reading :: o.trees⟩
  | several {l r : Tree (DenseMatrix α)} (h : p.others ≠ []) (hp : p.reading = .binary .times l r) :
      Arrived p o ⟨.binary .times :: o.operators, r :: l :: o.trees⟩

/-- The factors of a product are multiplied as they arrive, all but the last. -/
theorem exists_arrived (p : Product α) {o : Outline α}
    (h : ∀ top ∈ o.operators.head?, Stacks.waitsAbove (.binary .times) top = true) :
    ∃ o', o.feedAll p.plainItems = some o' ∧ Arrived p o o' := by
  obtain ⟨first, others⟩ := p
  induction others using List.reverseRecOn with
  | nil => exact ⟨_, rfl, .single rfl⟩
  | append_singleton others x ih =>
    obtain ⟨o', ho', harrived⟩ := ih
    have hreading : Product.reading ⟨first, others ++ [x]⟩ =
        .binary .times (Product.reading ⟨first, others⟩) (.leaf x.value) := by
      rw [Product.reading, List.foldl_append]
      rfl
    have hstep : ∀ o'', feedPair .times (.leaf x.value) o' = some o'' →
        o.feedAll (Product.plainItems ⟨first, others ++ [x]⟩) = some o'' := by
      intro o'' ho''
      obtain ⟨t, ht, rfl⟩ := Option.map_eq_some_iff.1 ho''
      have hitems : Product.plainItems ⟨first, others ++ [x]⟩ =
          Product.plainItems ⟨first, others⟩ ++
            [.operator (.binary .times), .operand x.value] := by
        simp [Product.plainItems, Product.plainRest]
      rw [hitems, feedAll_append, ho', Option.bind_some, feedAll_cons, ht]
      rfl
    cases harrived with
    | single hnone =>
      exact ⟨_, hstep _ (feedPair_waits h), .several (by simp) hreading⟩
    | several hsome hp =>
      refine ⟨_, hstep _ (feedPair_joins rfl), .several (by simp) ?_⟩
      rw [hreading, hp]

def minuses (below : List (Tree (DenseMatrix α))) : List Operator :=
  below.map fun _ => .binary .minus

/-- What stands above is taken from the trees below, from the last one on. -/
def unwind (below : List (Tree (DenseMatrix α))) (t : Tree (DenseMatrix α)) :
    Tree (DenseMatrix α) :=
  below.foldl (fun t s => .binary .minus s t) t

variable {p : Product α} {s : Tree (DenseMatrix α)} {below : List (Tree (DenseMatrix α))}
  {o' : Outline α}

omit [Scalar α] in
theorem drain_minuses (below : List (Tree (DenseMatrix α))) (t : Tree (DenseMatrix α)) :
    drain (minuses below) (t :: below) = some [unwind below t] := by
  induction below generalizing t with
  | nil => rfl
  | cons s below ih => exact ih (.binary .minus s t)

theorem exists_arrived_minuses (p : Product α) (s : Tree (DenseMatrix α))
    (below : List (Tree (DenseMatrix α))) :
    ∃ o', feedAll p.plainItems ⟨minuses (s :: below), s :: below⟩ = some o' ∧
      Arrived p ⟨minuses (s :: below), s :: below⟩ o' := by
  refine exists_arrived p ?_
  rintro top ⟨⟩
  rfl

/-- At the end the product is taken from what stands before it, and the difference from the rest. -/
theorem Arrived.drain (h : Arrived p ⟨minuses (s :: below), s :: below⟩ o') :
    drain o'.operators o'.trees = some [unwind below (.binary .minus s p.reading)] := by
  cases h with
  | single => exact drain_minuses below (.binary .minus s p.reading)
  | several hsome hp =>
    rw [hp]
    exact drain_minuses below (.binary .minus s _)

/-- After a single factor the next `-` takes it from what stands before it; -/
theorem Arrived.minus_of_single (h : Arrived p ⟨minuses (s :: below), s :: below⟩ o')
    (hp : p.others = []) :
    o'.feed (.operator (.binary .minus)) =
      some ⟨minuses (.binary .minus s p.reading :: below),
        .binary .minus s p.reading :: below⟩ := by
  cases h with
  | single => exact pushOperator_joins (by simp) rfl rfl
  | several hsome => exact absurd hp hsome

/-- after more factors it multiplies the last of them, and the `-` before the product goes on
waiting. -/
theorem Arrived.minus_of_several (h : Arrived p ⟨minuses (s :: below), s :: below⟩ o')
    (hp : p.others ≠ []) :
    o'.feed (.operator (.binary .minus)) =
      some ⟨minuses (p.reading :: s :: below), p.reading :: s :: below⟩ := by
  cases h with
  | single hnone => exact absurd hnone hp
  | several hsome hreading =>
    rw [hreading]
    exact pushOperator_joins (by simp) rfl rfl

/-- The first product of a chain is multiplied as soon as a `-` comes, or at the end. -/
theorem Arrived.first (h : Arrived p empty o') :
    o'.feed (.operator (.binary .minus)) = some ⟨minuses [p.reading], [p.reading]⟩ ∧
      Outline.drain o'.operators o'.trees = some [p.reading] := by
  cases h with
  | single => exact ⟨pushOperator_waits (by simp) (by simp [empty]), rfl⟩
  | several hsome hreading =>
    rw [hreading]
    exact ⟨pushOperator_joins (by simp) rfl rfl, rfl⟩

/-- Whatever products are to come, the outline ends with what the stacks take from `s`. -/
theorem exists_drain_taken (p : Product α) (ps : List (Product α)) (s : Tree (DenseMatrix α))
    (below : List (Tree (DenseMatrix α))) :
    ∃ o', feedAll (p.plainItems ++ ps.flatMap fun q => .operator (.binary .minus) :: q.plainItems)
        ⟨minuses (s :: below), s :: below⟩ = some o' ∧
      Outline.drain o'.operators o'.trees =
        some [unwind below (Product.takeNested s (p :: ps))] := by
  induction ps generalizing p s below with
  | nil =>
    obtain ⟨o₁, ho₁, harrived⟩ := exists_arrived_minuses p s below
    refine ⟨o₁, by rwa [List.flatMap_nil, List.append_nil], ?_⟩
    rw [Product.takeNested_last]
    exact harrived.drain
  | cons q ps ih =>
    obtain ⟨o₁, ho₁, harrived⟩ := exists_arrived_minuses p s below
    rw [List.flatMap_cons, feedAll_append, ho₁, Option.bind_some, List.cons_append, feedAll_cons]
    by_cases hp : p.others = []
    · rw [harrived.minus_of_single hp, Product.takeNested_single hp]
      exact ih q (.binary .minus s p.reading) below
    · rw [harrived.minus_of_several hp, Product.takeNested_several hp]
      exact ih q p.reading (s :: below)

/-- The items of a chain come down to the tree that takes the products as the stacks do. -/
theorem ofItems?_difference (d : Difference α) : ofItems? d.level.plainItems = some d.nested := by
  obtain ⟨first, taken⟩ := d
  obtain ⟨o₁, ho₁, harrived⟩ := exists_arrived first (o := empty) (by simp [empty])
  obtain ⟨hminus, hlast⟩ := harrived.first
  have hdrain : ∃ o', empty.feedAll (Difference.level ⟨first, taken⟩).plainItems = some o' ∧
      Outline.drain o'.operators o'.trees = some [Difference.nested ⟨first, taken⟩] := by
    rw [Difference.plainItems_level, feedAll_append, ho₁, Option.bind_some]
    cases taken with
    | nil => exact ⟨o₁, rfl, hlast⟩
    | cons p ps =>
      rw [List.flatMap_cons, List.cons_append, feedAll_cons, hminus]
      exact exists_drain_taken p ps first.reading []
  obtain ⟨o', ho', hd⟩ := hdrain
  rw [ofItems?, ho', Option.bind_some, finish, hd]

end Outline

/-! ## §3 The ordinary reading -/

namespace Product

variable {p : Product α} {s : Tree (DenseMatrix α)} {ps : List (Product α)}

/-- The factors of a product are multiplied before anything is taken. -/
theorem multiplyOut_others (others : List (Factor α)) (t : Tree (DenseMatrix α))
    (rest : List (Binary × Tree (DenseMatrix α))) :
    Tree.multiplyOut t (others.map (fun x => (.times, .leaf x.value)) ++ rest) =
      Tree.multiplyOut (others.foldl (fun t x => .binary .times t (.leaf x.value)) t) rest := by
  induction others generalizing t with
  | nil => rfl
  | cons x others ih => exact ih (.binary .times t (.leaf x.value))

theorem multiplyOut_taken (ps : List (Product α)) (t : Tree (DenseMatrix α)) :
    Tree.multiplyOut t (ps.flatMap fun p => (.minus, .leaf p.first.value) ::
        p.others.map fun x => (.times, .leaf x.value)) =
      (t, ps.map fun p => (.minus, p.reading)) := by
  induction ps generalizing t with
  | nil => rfl
  | cons p ps ih =>
    rw [List.flatMap_cons, List.cons_append, Tree.multiplyOut_sum (by simp), multiplyOut_others, ih]
    rfl

/-- If only the last product has more than one factor, nothing is taken from a product. -/
theorem takeNested_eq (h : ∀ p ∈ ps.dropLast, p.others = []) : takeNested s ps = takeAll s ps := by
  rcases List.eq_nil_or_concat ps with rfl | ⟨as, p, rfl⟩
  · rfl
  · rw [List.concat_eq_append] at h ⊢
    rw [List.dropLast_concat] at h
    rw [takeNested_append h, takeNested_last, takeAll, takeAll, List.foldl_append]
    rfl

end Product

namespace Difference

/-- Ordinary arithmetic reads a chain from left to right. -/
theorem reading_level (d : Difference α) : d.level.reading = d.fromLeft := by
  have hrest : (d.level.rest.map fun r => (r.1, Tree.leaf r.2.value)) =
      d.first.others.map (fun x => (.times, .leaf x.value)) ++
        d.taken.flatMap fun p => (.minus, .leaf p.first.value) ::
          p.others.map fun x => (.times, .leaf x.value) := by
    simp [level, List.map_flatMap, Function.comp_def]
  rw [FlatLevel.reading, hrest, Tree.ordinary, Product.multiplyOut_others,
    Product.multiplyOut_taken, Tree.addUp, List.foldl_map]
  rfl

/-- No product between the first and the last has two or more factors. -/
def SingleBetween (d : Difference α) : Prop := ∀ p ∈ d.taken.dropLast, p.others = []

theorem SingleBetween.nested_eq {d : Difference α} (h : d.SingleBetween) : d.nested = d.fromLeft :=
  Product.takeNested_eq h

def lengths (d : Difference α) : List Nat :=
  d.first.others.length :: d.taken.map fun p => p.others.length

theorem singleBetween_iff {d : Difference α} :
    d.SingleBetween ↔ ∀ n ∈ d.lengths.tail.dropLast, n = 0 := by
  rw [lengths, List.tail_cons, ← List.map_dropLast, List.forall_mem_map]
  exact forall₂_congr fun p _ => List.length_eq_zero_iff.symm

end Difference

end Scalar

/-! ## §4 Chains that differ -/

namespace DenseMatrix

def number {α : Type u} (x : α) : DenseMatrix α := ⟨⟨1, 1⟩, #[x]⟩

theorem number_eq {α : Type u} (x : α) : number x = ofGrid (m := 1) (n := 1) #v[#v[x]] := by
  simp [number, ofGrid, Grid.entries]

theorem number_injective {α : Type u} : Function.Injective (number : α → DenseMatrix α) := by
  intro x y h
  simpa [number] using h

end DenseMatrix

section Exact

variable {α : Type u} [Field α] [DecidableEq α]

namespace DenseMatrix

theorem sub_number (x y : α) : (number x).sub (number y) = .ok (number (x - y)) := by
  simp [sub, zipEntries, number]

theorem mul_number (x y : α) : (number x).mul (number y) = .ok (number (x * y)) := by
  rw [number_eq, number_eq, number_eq]
  refine (mul_eq_ok_ofGrid_iff (m := 1) (k := 1) (n := 1) rfl rfl).2 (Grid.ext_entry fun i j => ?_)
  rw [view_ofGrid, view_ofGrid, Grid.entry_mul, Grid.sum_finRange, Fin.sum_univ_one,
    Subsingleton.elim i 0, Subsingleton.elim j 0]
  rfl

end DenseMatrix

namespace Product

def constant (x : α) (p : Product α) : Product α :=
  ⟨⟨_, _, .operand (.number x)⟩, p.others.map fun _ => ⟨_, _, .operand (.number x)⟩⟩

variable {s t : Tree (DenseMatrix α)} {x y : α}

theorem value_minus (hs : s.value = .ok (.number x)) (ht : t.value = .ok (.number y)) :
    (Tree.binary .minus s t).value = .ok (.number (x - y)) := by
  rw [Tree.value_binary, hs, ht]
  show ((DenseMatrix.number x).sub (.number y)).mapError Fault.calculation = _
  rw [DenseMatrix.sub_number]
  rfl

theorem value_times (hs : s.value = .ok (.number x)) (ht : t.value = .ok (.number y)) :
    (Tree.binary .times s t).value = .ok (.number (x * y)) := by
  rw [Tree.value_binary, hs, ht]
  show ((DenseMatrix.number x).mul (.number y)).mapError Fault.calculation = _
  rw [DenseMatrix.mul_number]
  rfl

/-- A number that is its own square is the value of its products. -/
theorem value_constant (hx : x * x = x) (p : Product α) :
    (p.constant x).reading.value = .ok (.number x) := by
  obtain ⟨first, others⟩ := p
  induction others using List.reverseRecOn with
  | nil => rfl
  | append_singleton others y ih =>
    have hreading : (constant x ⟨first, others ++ [y]⟩).reading =
        .binary .times (constant x ⟨first, others⟩).reading (.leaf (.number x)) := by
      simp [reading, constant]
    rw [hreading]
    exact (value_times ih rfl).trans (by rw [hx])

variable {ps : List (Product α)}

/-- To take zeros away changes nothing, -/
theorem value_takeAll_zeros (hs : s.value = .ok (.number x)) (ps : List (Product α)) :
    (takeAll s (ps.map (constant 0))).value = .ok (.number x) := by
  induction ps generalizing s with
  | nil => exact hs
  | cons p ps ih =>
    refine ih (s := .binary .minus s (p.constant 0).reading) ?_
    rw [value_minus hs (value_constant (mul_zero 0) p), sub_zero]

/-- also as the stacks do it. -/
theorem value_takeNested_zeros (hs : s.value = .ok (.number x)) (ps : List (Product α)) :
    (takeNested s (ps.map (constant 0))).value = .ok (.number x) := by
  induction ps generalizing s x with
  | nil => exact hs
  | cons p ps ih =>
    have hp : (p.constant 0).reading.value = .ok (.number 0) := value_constant (mul_zero 0) p
    rw [List.map_cons]
    by_cases hsingle : (p.constant (0 : α)).others = []
    · rw [takeNested_single hsingle]
      refine ih ?_
      rw [value_minus hs hp, sub_zero]
    · rw [takeNested_several hsingle, value_minus hs (ih hp), sub_zero]

/-- If only zeros follow a product, just that product is taken away. -/
theorem value_takeNested_cons_zeros {p : Product α} (hs : s.value = .ok (.number x))
    (hp : p.reading.value = .ok (.number y)) (ps : List (Product α)) :
    (takeNested s (p :: ps.map (constant 0))).value = .ok (.number (x - y)) := by
  by_cases hsingle : p.others = []
  · rw [takeNested_single hsingle]
    exact value_takeNested_zeros (value_minus hs hp) ps
  · rw [takeNested_several hsingle]
    exact value_minus hs (value_takeNested_zeros hp ps)

theorem others_constant_eq_nil {p : Product α} : (p.constant x).others = [] ↔ p.others = [] :=
  List.map_eq_nil_iff

/-- The first product that keeps its `-` waiting, if one does. -/
theorem exists_first_several (h : ¬∀ p ∈ ps.dropLast, p.others = []) :
    ∃ as p q bs, ps = as ++ p :: q :: bs ∧ (∀ x ∈ as, x.others = []) ∧ p.others ≠ [] := by
  induction ps with
  | nil => exact absurd (fun p hp => nomatch hp) h
  | cons p ps ih =>
    rcases ps with _ | ⟨q, ps⟩
    · exact absurd (fun p hp => nomatch hp) h
    by_cases hp : p.others = []
    · have hrest : ¬∀ p ∈ (q :: ps).dropLast, p.others = [] := fun hall =>
        h (by simpa [hp] using hall)
      obtain ⟨as, p', q', bs, hsplit, has, hp'⟩ := ih hrest
      refine ⟨p :: as, p', q', bs, congrArg (p :: ·) hsplit, ?_, hp'⟩
      exact List.forall_mem_cons.2 ⟨hp, has⟩
    · exact ⟨[], p, q, ps, rfl, List.forall_mem_nil _, hp⟩

end Product

namespace Difference

/-- Whatever the lengths of the products, if one between the first and the last has two or more
factors, there are numbers for which it matters: zeros, but for ones in the product after it. -/
theorem exists_differing {d : Difference α} (h : ¬d.SingleBetween) :
    ∃ e : Difference α, e.lengths = d.lengths ∧ e.fromLeft.value = .ok (.number (-1)) ∧
      e.nested.value = .ok (.number 1) := by
  obtain ⟨first, taken⟩ := d
  obtain ⟨as, p, q, bs, rfl, has, hp⟩ := Product.exists_first_several h
  have hzero (p : Product α) : (p.constant 0).reading.value = .ok (.number 0) :=
    Product.value_constant (mul_zero 0) p
  have hone : (q.constant 1).reading.value = .ok (.number 1) :=
    Product.value_constant (mul_one 1) q
  have hbefore : (Product.takeAll (first.constant 0).reading (as.map (.constant 0))).value =
      .ok (.number 0) := Product.value_takeAll_zeros (hzero first) as
  refine ⟨⟨first.constant 0, as.map (.constant 0) ++
    p.constant 0 :: q.constant 1 :: bs.map (.constant 0)⟩, ?_, ?_, ?_⟩
  · simp [lengths, Product.constant, Function.comp_def]
  · have hq := Product.value_minus (Product.value_minus hbefore (hzero p)) hone
    rw [sub_self, zero_sub] at hq
    rw [fromLeft, Product.takeAll, List.foldl_append]
    exact Product.value_takeAll_zeros hq bs
  · have hlater := Product.value_takeNested_cons_zeros (hzero p) hone bs
    have hsingle : ∀ x ∈ as.map (Product.constant (0 : α)), x.others = [] := by
      rintro x hx
      obtain ⟨y, hy, rfl⟩ := List.mem_map.1 hx
      exact Product.others_constant_eq_nil.2 (has y hy)
    have hseveral : (p.constant (0 : α)).others ≠ [] := mt Product.others_constant_eq_nil.1 hp
    rw [nested, Product.takeNested_append hsingle, Product.takeNested_several hseveral,
      Product.value_minus hbefore hlater, zero_sub, zero_sub, neg_neg]

end Difference

/-! ## §5 The value of a chain -/

/-- Ordinary arithmetic takes the products of a chain from left to right. The stacks take from a
product of two or more factors, first and last product apart, all that comes after it, and the rest
from left to right; the value of the chain is the value of that, or its fault, by itself and as a
group anywhere. So a chain has its ordinary value if each product between the first and the last is
a single factor; and if one is not, there is a chain with as many factors in each product that has
an ordinary value and evaluates to another, unless `2` is `0`. -/
theorem difference_value (d : Difference α) :
    d.level.reading = d.fromLeft ∧
    (evaluateItems d.level.items).result = d.nested.value ∧
    (∀ s : Stacks α,
      (s.feedAll (.operator .opening :: (d.level.items ++ [.operator .closing]))).toLogged.result =
        d.nested.value.map fun a => { s with operands := a :: s.operands }) ∧
    (d.SingleBetween → d.nested = d.fromLeft) ∧
    ((2 : α) ≠ 0 → (d.SingleBetween ↔ ∀ e : Difference α, e.lengths = d.lengths →
      ∀ a, e.fromLeft.value = .ok a → (evaluateItems e.level.items).result = .ok a)) := by
  have hvalue (e : Difference α) : (evaluateItems e.level.items).result = e.nested.value := by
    rw [result_evaluateItems_level]
    exact Outline.result_evaluateItems (Outline.ofItems?_difference e)
  refine ⟨d.reading_level, hvalue d, fun s => ?_, Difference.SingleBetween.nested_eq,
    fun htwo => ⟨fun hd e he a ha => ?_, fun hall => ?_⟩⟩
  · rw [Stacks.result_feedAll_level_group,
      Stacks.result_feedAll_tree (Outline.ofItems?_difference d)]
  · have hsingle : e.SingleBetween :=
      Difference.singleBetween_iff.2 (he ▸ Difference.singleBetween_iff.1 hd)
    rw [hvalue e, hsingle.nested_eq, ha]
  · by_contra hnot
    obtain ⟨e, hlengths, hleft, hnested⟩ := Difference.exists_differing hnot
    have hone := hall e hlengths _ hleft
    rw [hvalue e, hnested] at hone
    have hsame : (1 : α) = -1 := DenseMatrix.number_injective (Except.ok.inj hone)
    exact htwo (by rw [← one_add_one_eq_two, ← eq_neg_iff_add_eq_zero, ← hsame])

end Exact

/-- Several factors at both ends, and one between them. -/
theorem difference_value_ends :
    let single (x : ℚ) : Factor ℚ := ⟨[.operand (.number x)], .number x, .operand _⟩
    let d : Difference ℚ := ⟨⟨single 2, [single 3]⟩, [⟨single 1, []⟩, ⟨single 4, [single 5]⟩]⟩
    (2 : ℚ) ≠ 0 ∧ d.SingleBetween ∧ d.fromLeft.value = .ok (.number (-15)) ∧
      (evaluateItems d.level.items).result = .ok (.number (-15)) := by
  intro single d
  have htwo : (2 : ℚ) ≠ 0 := by decide
  have hsingle : d.SingleBetween := by simp [d, Difference.SingleBetween]
  have hleft : d.fromLeft.value = .ok (.number (-15)) := by decide +kernel
  obtain ⟨-, -, -, -, hiff⟩ := difference_value d
  exact ⟨htwo, hsingle, hleft, (hiff htwo).1 hsingle d rfl _ hleft⟩

/-- From a product in between the next number is taken first: `9 - (2 * 3 - 1)` is `4`, and from
left to right it would be `2`. -/
theorem difference_of_inner_product :
    let single (x : ℚ) : Factor ℚ := ⟨[.operand (.number x)], .number x, .operand _⟩
    let d : Difference ℚ := ⟨⟨single 9, []⟩, [⟨single 2, [single 3]⟩, ⟨single 1, []⟩]⟩
    d.fromLeft.value = .ok (.number 2) ∧
      (evaluateItems d.level.items).result = .ok (.number 4) ∧
      (evaluate "[9] - [2] * [3] - [1]").result = .ok (.number 4) ∧
      ¬∀ e : Difference ℚ, e.taken ≠ [] → ∀ a, e.fromLeft.value = .ok a →
        (evaluateItems e.level.items).result = .ok a := by
  intro single d
  have hleft : d.fromLeft.value = .ok (.number 2) := by decide +kernel
  have hvalue : (evaluateItems d.level.items).result = .ok (.number 4) := by decide +kernel
  refine ⟨hleft, hvalue, by decide +kernel, fun hall => ?_⟩
  have hsame := hvalue.symm.trans (hall d (List.cons_ne_nil _ _) _ hleft)
  revert hsame
  decide +kernel

end MatrixCalc
