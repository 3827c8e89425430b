import Mathlib.Algebra.Field.Rat
import MatrixCalc.Proofs.Algebra.Exact
import MatrixCalc.Proofs.Outline.Groups

/-!
# Ordinary arithmetic

One level of an expression without unary operators: matrices and groups with `+`, `-` and `*`
between them. Ordinary arithmetic takes the products first and then the sums and differences from
left to right. The stacks do not. A `-` binds tighter than a `+`, and an arriving operator reduces
one waiting operator only, so sums pile up and are taken from right to left in the end.

With exact entries that makes no difference unless a product after a `-` is followed by another `+`
or `-`: it is that one which is taken first then (`level_value`). What carries the proof is the form
of what waits: only `+` below at most one `-` below at most one `*` (`Stage`). The pending sums may
be grouped from the right since a sum may be grouped either way, and a product below a `-` has
nothing but factors to come.

§1 readings · §2 readings of one value · §3 stages · §4 levels
-/

namespace MatrixCalc

universe u v

/-! ## §1 Readings -/

namespace Tree

variable {β : Type v}

/-- The first product, and the later ones with the `+` or `-` before each. -/
def multiplyOut (p : Tree β) : List (Binary × Tree β) → Tree β × List (Binary × Tree β)
  | [] => (p, [])
  | (b, x) :: rest =>
    if b = .times then multiplyOut (.binary .times p x) rest
    else (p, (b, (multiplyOut x rest).1) :: (multiplyOut x rest).2)

def addUp (s : Tree β) (summands : List (Binary × Tree β)) : Tree β :=
  summands.foldl (fun s x => .binary x.1 s x.2) s

/-- Products first, then sums and differences from left to right. -/
def ordinary (x : Tree β) (rest : List (Binary × Tree β)) : Tree β :=
  addUp (multiplyOut x rest).1 (multiplyOut x rest).2

variable {b c : Binary} {x y z : Tree β} {rest : List (Binary × Tree β)}

theorem multiplyOut_times :
    multiplyOut x ((.times, y) :: rest) = multiplyOut (.binary .times x y) rest := rfl

theorem multiplyOut_sum (hb : b ≠ .times) :
    multiplyOut x ((b, y) :: rest) = (x, (b, (multiplyOut y rest).1) :: (multiplyOut y rest).2) :=
  if_neg hb

theorem ne_times_of_mem_multiplyOut :
    ∀ s ∈ (multiplyOut x rest).2, s.1 ≠ .times := by
  induction rest generalizing x with
  | nil => simp [multiplyOut]
  | cons r rest ih =>
    obtain ⟨b, y⟩ := r
    by_cases hb : b = .times
    · subst hb
      exact ih
    · rw [multiplyOut_sum hb]
      intro s hs
      rcases List.mem_cons.1 hs with rfl | hs
      · exact hb
      · exact ih s hs

theorem ordinary_sum_times (hb : b ≠ .times) :
    ordinary x ((b, y) :: (.times, z) :: rest) = ordinary x ((b, .binary .times y z) :: rest) := by
  rw [ordinary, ordinary, multiplyOut_sum hb, multiplyOut_sum hb, multiplyOut_times]

theorem ordinary_sum_sum (hb : b ≠ .times) (hc : c ≠ .times) :
    ordinary x ((b, y) :: (c, z) :: rest) = ordinary (.binary b x y) ((c, z) :: rest) := by
  rw [ordinary, ordinary, multiplyOut_sum hb, multiplyOut_sum hc, multiplyOut_sum hc]
  rfl

end Tree

/-! ## §2 Readings of one value -/

namespace Tree

variable {α : Type u}

def value? [Scalar α] (t : Tree (DenseMatrix α)) : Option (DenseMatrix α) := t.value.toOption

theorem value?_eq_some_iff [Scalar α] {t : Tree (DenseMatrix α)} {a : DenseMatrix α} :
    t.value? = some a ↔ t.value = .ok a := by
  unfold value?
  cases t.value <;> simp [Except.toOption]

theorem value?_binary [Scalar α] (b : Binary) (l r : Tree (DenseMatrix α)) :
    (binary b l r).value? =
      l.value?.bind fun x => r.value?.bind fun y => (b.apply x y).toOption := by
  rw [value?, value_binary, value?, value?]
  cases l.value with
  | error f => rfl
  | ok x =>
    cases r.value with
    | error f => rfl
    | ok y =>
      show ((b.apply x y).mapError Fault.calculation).toOption = (b.apply x y).toOption
      cases b.apply x y <;> rfl

theorem value?_addUp_congr [Scalar α] {s t : Tree (DenseMatrix α)} (h : s.value? = t.value?)
    (summands : List (Binary × Tree (DenseMatrix α))) :
    (addUp s summands).value? = (addUp t summands).value? := by
  induction summands generalizing s t with
  | nil => exact h
  | cons x summands ih => exact ih (by rw [value?_binary, value?_binary, h])

section Exact

variable [Field α] [DecidableEq α] {x y z : Tree (DenseMatrix α)}

theorem value?_plus_assoc {b : Binary} (hb : b ≠ .times) :
    (binary b (binary .plus x y) z).value? = (binary .plus x (binary b y z)).value? := by
  simp only [value?_binary]
  cases x.value? with
  | none => rfl
  | some u =>
    cases y.value? with
    | none => rfl
    | some v =>
      cases z.value? with
      | none => simp
      | some w => simpa using Binary.apply_plus_assoc hb u v w

/-- What is added to a sum of summands may be added to its first summand. -/
theorem value?_addUp_plus {summands : List (Binary × Tree (DenseMatrix α))}
    (h : ∀ s ∈ summands, s.1 ≠ .times) :
    (addUp (binary .plus x y) summands).value? = (binary .plus x (addUp y summands)).value? := by
  induction summands generalizing y with
  | nil => rfl
  | cons s summands ih =>
    have hassoc := value?_plus_assoc (x := x) (y := y) (z := s.2) (h s List.mem_cons_self)
    have hrest : ∀ s ∈ summands, s.1 ≠ .times := fun t ht => h t (List.mem_cons_of_mem s ht)
    calc (addUp (binary .plus x y) (s :: summands)).value?
        = (addUp (binary s.1 (binary .plus x y) s.2) summands).value? := rfl
      _ = (addUp (binary .plus x (binary s.1 y s.2)) summands).value? :=
          value?_addUp_congr hassoc summands
      _ = (binary .plus x (addUp y (s :: summands))).value? := ih hrest

theorem value?_ordinary_plus {rest : List (Binary × Tree (DenseMatrix α))} :
    (ordinary x ((.plus, y) :: rest)).value? = (binary .plus x (ordinary y rest)).value? := by
  rw [ordinary, multiplyOut_sum (by simp)]
  exact value?_addUp_plus ne_times_of_mem_multiplyOut

end Exact

/-- The waiting summands are added from the right, the last one first. -/
def plug (below : List (Tree (DenseMatrix α))) (t : Tree (DenseMatrix α)) : Tree (DenseMatrix α) :=
  below.foldl (fun t s => .binary .plus s t) t

theorem value?_plug_congr [Scalar α] {s t : Tree (DenseMatrix α)} (h : s.value? = t.value?)
    (below : List (Tree (DenseMatrix α))) : (plug below s).value? = (plug below t).value? := by
  induction below generalizing s t with
  | nil => exact h
  | cons x below ih => exact ih (by rw [value?_binary, value?_binary, h])

end Tree

/-! ## §3 Stages -/

/-- No product of two or more factors after a `-` is followed by another `+` or `-`. -/
def ProductsLast : List Binary → Prop
  | [] => True
  | b :: ops => (b = .minus → ops.head? = some .times → ∀ c ∈ ops, c = .times) ∧ ProductsLast ops

theorem productsLast_of_not_mem {ops : List Binary} (h : .times ∉ ops ∨ .minus ∉ ops) :
    ProductsLast ops := by
  induction ops with
  | nil => trivial
  | cons b ops ih =>
    rcases h with h | h
    · refine ⟨fun _ hhead => ?_, ih (.inl fun hm => h (List.mem_cons_of_mem b hm))⟩
      exact absurd (List.mem_cons_of_mem b (List.mem_of_mem_head? hhead)) h
    · refine ⟨fun hb => ?_, ih (.inr fun hm => h (List.mem_cons_of_mem b hm))⟩
      exact absurd (hb ▸ List.mem_cons_self) h

namespace Outline

variable {α : Type u}

open MatrixCalc.Tree (plug ordinary value?)

def pluses (below : List (Tree (DenseMatrix α))) : List Operator :=
  below.map fun _ => .binary .plus

theorem drain_pluses (below : List (Tree (DenseMatrix α))) (t : Tree (DenseMatrix α)) :
    drain (pluses below) (t :: below) = some [plug below t] := by
  induction below generalizing t with
  | nil => rfl
  | cons s below ih => exact ih (.binary .plus s t)

/-- `Stage o below x pending`: summands wait in the outline below `x`, and what waits above it is a
difference, a product or a product that is taken from something. -/
inductive Stage : Outline α → List (Tree (DenseMatrix α)) → Tree (DenseMatrix α) →
    List (Binary × Tree (DenseMatrix α)) → Prop where
  | sum (below : List (Tree (DenseMatrix α))) (x : Tree (DenseMatrix α)) :
      Stage ⟨pluses below, x :: below⟩ below x []
  | difference (below : List (Tree (DenseMatrix α))) (x y : Tree (DenseMatrix α)) :
      Stage ⟨.binary .minus :: pluses below, y :: x :: below⟩ below x [(.minus, y)]
  | product (below : List (Tree (DenseMatrix α))) (x y : Tree (DenseMatrix α)) :
      Stage ⟨.binary .times :: pluses below, y :: x :: below⟩ below x [(.times, y)]
  | takenProduct (below : List (Tree (DenseMatrix α))) (x y z : Tree (DenseMatrix α)) :
      Stage ⟨.binary .times :: .binary .minus :: pluses below, z :: y :: x :: below⟩ below x
        [(.minus, y), (.times, z)]

theorem Stage.finish {o : Outline α} {below : List (Tree (DenseMatrix α))}
    {x : Tree (DenseMatrix α)} {pending : List (Binary × Tree (DenseMatrix α))}
    (h : Stage o below x pending) : o.finish = some (plug below (ordinary x pending)) := by
  have hdrain : drain o.operators o.trees = some [plug below (ordinary x pending)] := by
    cases h with
    | sum => exact drain_pluses below x
    | difference _ _ y => exact drain_pluses below (.binary .minus x y)
    | product _ _ y => exact drain_pluses below (.binary .times x y)
    | takenProduct _ _ y z => exact drain_pluses below (.binary .minus x (.binary .times y z))
  rw [Outline.finish, hdrain]

/-- What a binary operator and the operand after it make of an outline. -/
def feedPair (b : Binary) (y : Tree (DenseMatrix α)) (o : Outline α) : Option (Outline α) :=
  (o.feed (.operator (.binary b))).map (pushTree y)

theorem feedPair_waits {b : Binary} {y : Tree (DenseMatrix α)} {operators : List Operator}
    {trees : List (Tree (DenseMatrix α))}
    (h : ∀ top ∈ operators.head?, Stacks.waitsAbove (.binary b) top = true) :
    feedPair b y ⟨operators, trees⟩ = some ⟨.binary b :: operators, y :: trees⟩ := by
  have hfeed : feed (.operator (.binary b)) ⟨operators, trees⟩ =
      some ⟨.binary b :: operators, trees⟩ := pushOperator_waits (by simp) h
  rw [feedPair, hfeed]
  rfl

theorem feedPair_joins {b top : Binary} {r l y : Tree (DenseMatrix α)} {operators : List Operator}
    {trees : List (Tree (DenseMatrix α))}
    (h : Stacks.waitsAbove (.binary b) (.binary top) = false) :
    feedPair b y ⟨.binary top :: operators, r :: l :: trees⟩ =
      some ⟨.binary b :: operators, y :: .binary top l r :: trees⟩ := by
  have hfeed : feed (.operator (.binary b)) ⟨.binary top :: operators, r :: l :: trees⟩ =
      some ⟨.binary b :: operators, .binary top l r :: trees⟩ :=
    pushOperator_joins (by simp) h rfl
  rw [feedPair, hfeed]
  rfl

theorem waitsAbove_pluses {b : Binary} (hb : b ≠ .plus) (below : List (Tree (DenseMatrix α))) :
    ∀ top ∈ (pluses below).head?, Stacks.waitsAbove (.binary b) top = true := by
  cases below with
  | nil => simp [pluses]
  | cons s below =>
    rintro top ⟨⟩
    cases b <;> first | rfl | exact absurd rfl hb

section Exact

variable [Field α] [DecidableEq α] {o : Outline α} {below : List (Tree (DenseMatrix α))}
  {x y z w : Tree (DenseMatrix α)} {pending rest : List (Binary × Tree (DenseMatrix α))}
  {b : Binary}

/-- With an operator and its operand the outline comes to a stage again, and the ordinary reading of
what is there and of what is to come has a given value then. -/
def Advances (o : Outline α) (b : Binary) (y : Tree (DenseMatrix α))
    (rest : List (Binary × Tree (DenseMatrix α))) (whole : Option (DenseMatrix α)) : Prop :=
  ∃ o' below x pending, feedPair b y o = some o' ∧ Stage o' below x pending ∧
    ProductsLast (pending.map (·.1) ++ rest.map (·.1)) ∧
    value? (plug below (ordinary x (pending ++ rest))) = whole

theorem advances_sum (hlast : ProductsLast (b :: rest.map (·.1))) :
    Advances ⟨pluses below, x :: below⟩ b y rest
      (value? (plug below (ordinary x ((b, y) :: rest)))) := by
  cases b with
  | plus =>
    -- a `+` that waits already is joined, and the sum takes its place
    cases below with
    | nil =>
      refine ⟨_, [x], y, [], feedPair_waits (by simp [pluses]), .sum [x] y, hlast.2, ?_⟩
      exact Tree.value?_ordinary_plus.symm
    | cons s below =>
      refine ⟨_, .binary .plus s x :: below, y, [], feedPair_joins rfl,
        .sum (.binary .plus s x :: below) y, hlast.2, Tree.value?_plug_congr ?_ below⟩
      calc value? (.binary .plus (.binary .plus s x) (ordinary y rest))
          = value? (.binary .plus s (.binary .plus x (ordinary y rest))) :=
            Tree.value?_plus_assoc (by simp)
        _ = value? (.binary .plus s (ordinary x ((.plus, y) :: rest))) := by
            rw [Tree.value?_binary, ← Tree.value?_ordinary_plus, ← Tree.value?_binary]
  | minus =>
    exact ⟨_, below, x, [(.minus, y)], feedPair_waits (waitsAbove_pluses (by simp) below),
      .difference below x y, hlast, rfl⟩
  | times =>
    exact ⟨_, below, x, [(.times, y)], feedPair_waits (waitsAbove_pluses (by simp) below),
      .product below x y, hlast, rfl⟩

theorem advances_difference (hlast : ProductsLast (.minus :: b :: rest.map (·.1))) :
    Advances ⟨.binary .minus :: pluses below, z :: x :: below⟩ b y rest
      (value? (plug below (ordinary x ((.minus, z) :: (b, y) :: rest)))) := by
  cases b with
  | plus =>
    refine ⟨_, .binary .minus x z :: below, y, [], feedPair_joins rfl,
      .sum (.binary .minus x z :: below) y, hlast.2.2, Tree.value?_plug_congr ?_ below⟩
    rw [Tree.ordinary_sum_sum (by simp) (by simp)]
    exact Tree.value?_ordinary_plus.symm
  | minus =>
    refine ⟨_, below, .binary .minus x z, [(.minus, y)], feedPair_joins rfl,
      .difference below _ y, hlast.2, ?_⟩
    rw [List.singleton_append, Tree.ordinary_sum_sum (by simp) (by simp)]
  | times =>
    refine ⟨_, below, x, [(.minus, z), (.times, y)], feedPair_waits ?_,
      .takenProduct below x z y, hlast, rfl⟩
    rintro top ⟨⟩
    rfl

theorem advances_product (hlast : ProductsLast (.times :: b :: rest.map (·.1))) :
    Advances ⟨.binary .times :: pluses below, z :: x :: below⟩ b y rest
      (value? (plug below (ordinary x ((.times, z) :: (b, y) :: rest)))) := by
  cases b with
  | plus =>
    refine ⟨_, .binary .times x z :: below, y, [], feedPair_joins rfl,
      .sum (.binary .times x z :: below) y, hlast.2.2, Tree.value?_plug_congr ?_ below⟩
    exact Tree.value?_ordinary_plus.symm
  | minus =>
    exact ⟨_, below, .binary .times x z, [(.minus, y)], feedPair_joins rfl,
      .difference below _ y, hlast.2, rfl⟩
  | times =>
    exact ⟨_, below, .binary .times x z, [(.times, y)], feedPair_joins rfl,
      .product below _ y, hlast.2, rfl⟩

/-- After a product that is taken from something nothing but factors can come. -/
theorem advances_takenProduct (hlast : ProductsLast (.minus :: .times :: b :: rest.map (·.1))) :
    Advances ⟨.binary .times :: .binary .minus :: pluses below, w :: z :: x :: below⟩ b y rest
      (value? (plug below (ordinary x ((.minus, z) :: (.times, w) :: (b, y) :: rest)))) := by
  have hfactors : ∀ c ∈ .times :: b :: rest.map (·.1), c = .times := hlast.1 rfl rfl
  obtain rfl : b = .times := hfactors b (by simp)
  have hrest : ∀ c ∈ .times :: rest.map (·.1), c = .times :=
    fun c hc => hfactors c (List.mem_cons_of_mem _ hc)
  refine ⟨_, below, x, [(.minus, .binary .times z w), (.times, y)], feedPair_joins rfl,
    .takenProduct below x _ y, ⟨fun _ _ => hrest, hlast.2.2⟩, Tree.value?_plug_congr ?_ below⟩
  simp only [List.cons_append, List.nil_append]
  rw [Tree.ordinary_sum_times (by simp), Tree.ordinary_sum_times (by simp),
    Tree.ordinary_sum_times (by simp)]

theorem Stage.step (h : Stage o below x pending)
    (hlast : ProductsLast (pending.map (·.1) ++ b :: rest.map (·.1))) :
    Advances o b y rest (value? (plug below (ordinary x (pending ++ (b, y) :: rest)))) := by
  cases h with
  | sum => exact advances_sum hlast
  | difference => exact advances_difference hlast
  | product => exact advances_product hlast
  | takenProduct => exact advances_takenProduct hlast

/-- Whatever is to come, the outline ends with a tree of the ordinary value. -/
theorem Stage.run (h : Stage o below x pending) {rest : List (Binary × DenseMatrix α)}
    (hlast : ProductsLast (pending.map (·.1) ++ rest.map (·.1))) :
    ∃ t, (feedAll (rest.flatMap fun r => [.operator (.binary r.1), .operand r.2]) o).bind
        Outline.finish = some t ∧
      t.value? = value? (plug below (ordinary x
        (pending ++ rest.map fun r => (r.1, .leaf r.2)))) := by
  induction rest generalizing o below x pending with
  | nil => exact ⟨_, h.finish, by rw [List.map_nil, List.append_nil]⟩
  | cons r rest ih =>
    obtain ⟨b, a⟩ := r
    let later : List (Binary × Tree (DenseMatrix α)) := rest.map fun r => (r.1, .leaf r.2)
    have hops : later.map (·.1) = rest.map (·.1) := by simp [later]
    have hlast' : ProductsLast (pending.map (·.1) ++ b :: later.map (·.1)) := by
      rw [hops]
      exact hlast
    obtain ⟨o', below', x', pending', hfeed, hstage, hnext, hvalue⟩ :=
      h.step (y := .leaf a) hlast'
    obtain ⟨p, hp, rfl⟩ := Option.map_eq_some_iff.1 hfeed
    obtain ⟨t, ht, htv⟩ := ih hstage (hops ▸ hnext)
    refine ⟨t, ?_, htv.trans hvalue⟩
    rw [List.flatMap_cons, feedAll_append, feedAll_cons, hp]
    exact ht

end Exact

end Outline

/-! ## §4 Levels -/

section Scalar

variable {α : Type u} [Scalar α]

/-- A matrix, or a group that has a value by itself. -/
inductive IsFactor : List (Item α) → DenseMatrix α → Prop where
  | operand (a : DenseMatrix α) : IsFactor [.operand a] a
  | group {items : List (Item α)} {a : DenseMatrix α}
      (h : (evaluateItems items).result = .ok a) :
      IsFactor (.operator .opening :: (items ++ [.operator .closing])) a

structure Factor (α : Type u) [Scalar α] where
  items : List (Item α)
  value : DenseMatrix α
  isFactor : IsFactor items value

/-- Factors with binary operators between them. -/
structure FlatLevel (α : Type u) [Scalar α] where
  first : Factor α
  rest : List (Binary × Factor α)

namespace FlatLevel

def items (l : FlatLevel α) : List (Item α) :=
  l.first.items ++ l.rest.flatMap fun r => .operator (.binary r.1) :: r.2.items

def operators (l : FlatLevel α) : List Binary := l.rest.map (·.1)

def reading (l : FlatLevel α) : Tree (DenseMatrix α) :=
  .ordinary (.leaf l.first.value) (l.rest.map fun r => (r.1, .leaf r.2.value))

end FlatLevel

namespace Stacks

theorem result_feedAll_cons_congr {xs ys : List (Item α)}
    (h : ∀ t : Stacks α, (t.feedAll xs).toLogged.result = (t.feedAll ys).toLogged.result)
    (item : Item α) (s : Stacks α) :
    (s.feedAll (item :: xs)).toLogged.result = (s.feedAll (item :: ys)).toLogged.result := by
  rw [result_feedAll_cons, result_feedAll_cons]
  cases (s.feed item).toLogged.result with
  | error f => rfl
  | ok t => exact h t

theorem result_feedAll_factor (x : Factor α) (items : List (Item α)) (s : Stacks α) :
    (s.feedAll (x.items ++ items)).toLogged.result =
      (s.feedAll (.operand x.value :: items)).toLogged.result := by
  have hfactor : (s.feedAll x.items).toLogged.result =
      .ok { s with operands := x.value :: s.operands } := by
    obtain ⟨xs, a, h⟩ := x
    cases h with
    | operand a => rfl
    | group h => exact result_feedAll_group h s
  rw [result_feedAll_append, hfactor, result_feedAll_cons]
  rfl

end Stacks

/-- The level with the values of its factors in their places. -/
def FlatLevel.plainItems (l : FlatLevel α) : List (Item α) :=
  .operand l.first.value :: l.rest.flatMap fun r => [.operator (.binary r.1), .operand r.2.value]

theorem Stacks.result_feedAll_level (l : FlatLevel α) (s : Stacks α) :
    (s.feedAll l.items).toLogged.result = (s.feedAll l.plainItems).toLogged.result := by
  have hrest : ∀ (rest : List (Binary × Factor α)) (t : Stacks α),
      (t.feedAll (rest.flatMap fun r => .operator (.binary r.1) :: r.2.items)).toLogged.result =
      (t.feedAll (rest.flatMap fun r =>
        [.operator (.binary r.1), .operand r.2.value])).toLogged.result := by
    intro rest
    induction rest with
    | nil => exact fun t => rfl
    | cons r rest ih =>
      intro t
      rw [List.flatMap_cons, List.flatMap_cons, List.cons_append, List.cons_append,
        List.cons_append, List.nil_append]
      refine result_feedAll_cons_congr (fun u => ?_) _ t
      rw [result_feedAll_factor]
      exact result_feedAll_cons_congr ih _ u
  rw [FlatLevel.items, FlatLevel.plainItems, result_feedAll_factor]
  exact result_feedAll_cons_congr (hrest l.rest) _ s

theorem result_evaluateItems_level (l : FlatLevel α) :
    (evaluateItems l.items).result = (evaluateItems l.plainItems).result := by
  rw [evaluateItems, evaluateItems, Logged.result_bind, Logged.result_bind,
    Stacks.result_feedAll_level]

theorem Stacks.result_feedAll_level_group (l : FlatLevel α) (s : Stacks α) :
    (s.feedAll (.operator .opening :: (l.items ++ [.operator .closing]))).toLogged.result =
      (s.feedAll (.operator .opening ::
        (l.plainItems ++ [.operator .closing]))).toLogged.result := by
  refine result_feedAll_cons_congr (fun t => ?_) _ s
  rw [result_feedAll_append, result_feedAll_append, result_feedAll_level]

end Scalar

/-- A level where no product after a `-` is followed by another `+` or `-` has its ordinary value,
or none where ordinary arithmetic gives none, by itself and as a group anywhere. A level without `*`
is of that kind, and so is a level without `-`. -/
theorem level_value {α : Type u} [Field α] [DecidableEq α] (l : FlatLevel α) :
    (ProductsLast l.operators →
      (∀ a, (evaluateItems l.items).result = .ok a ↔ l.reading.value = .ok a) ∧
      ∀ s s' : Stacks α,
        (s.feedAll (.operator .opening :: (l.items ++ [.operator .closing]))).toLogged.result =
            .ok s' ↔
          ∃ a, l.reading.value = .ok a ∧ s' = { s with operands := a :: s.operands }) ∧
    (.times ∉ l.operators ∨ .minus ∉ l.operators → ProductsLast l.operators) := by
  refine ⟨fun hlast => ?_, productsLast_of_not_mem⟩
  let values : List (Binary × DenseMatrix α) := l.rest.map fun r => (r.1, r.2.value)
  have hops : values.map (·.1) = l.operators := by simp [values, FlatLevel.operators]
  have hpending : ProductsLast
      (([] : List (Binary × Tree (DenseMatrix α))).map (·.1) ++ values.map (·.1)) := by
    rw [List.map_nil, List.nil_append, hops]
    exact hlast
  obtain ⟨t, ht, hvalue⟩ := (Outline.Stage.sum [] (.leaf l.first.value)).run hpending
  have hofItems : Outline.ofItems? l.plainItems = some t := by
    have hplain : l.plainItems = .operand l.first.value ::
        values.flatMap fun r => [.operator (.binary r.1), .operand r.2] := by
      simp [FlatLevel.plainItems, values, List.flatMap_map]
    rw [hplain]
    exact ht
  have hreading : t.value? = l.reading.value? := by
    rw [hvalue, FlatLevel.reading, List.nil_append, List.map_map]
    rfl
  have hok : ∀ a, t.value = .ok a ↔ l.reading.value = .ok a := fun a => by
    rw [← Tree.value?_eq_some_iff, ← Tree.value?_eq_some_iff, hreading]
  constructor
  · intro a
    rw [result_evaluateItems_level, Outline.result_evaluateItems hofItems]
    exact hok a
  · intro s s'
    rw [Stacks.result_feedAll_level_group, Stacks.result_feedAll_tree hofItems, map_eq_ok_iff]
    constructor
    · rintro ⟨a, ha, rfl⟩
      exact ⟨a, (hok a).1 ha, rfl⟩
    · rintro ⟨a, ha, rfl⟩
      exact ⟨a, (hok a).2 ha, rfl⟩

/-- A sum in brackets, a difference before a sum, and a product at the end. -/
theorem level_value_of_group :
    let number (x : ℚ) : DenseMatrix ℚ := ⟨⟨1, 1⟩, #[x]⟩
    let single (x : ℚ) : Factor ℚ := ⟨[.operand (number x)], number x, .operand _⟩
    let group : List (Item ℚ) :=
      [.operand (number 1), .operator (.binary .plus), .operand (number 2)]
    ∃ h : (evaluateItems group).result = .ok (number 3),
      let l : FlatLevel ℚ := ⟨single 5, [(.minus, ⟨_, _, .group h⟩), (.plus, single 7),
        (.plus, single 2), (.times, single 4)]⟩
      ProductsLast l.operators ∧ l.reading.value = .ok (number 17) ∧
        (evaluateItems l.items).result = .ok (number 17) := by
  intro number single group
  have h : (evaluateItems group).result = .ok (number 3) := by decide +kernel
  refine ⟨h, ?_⟩
  intro l
  have hlast : ProductsLast l.operators := by
    simp [l, FlatLevel.operators, ProductsLast]
  have hreading : (Tree.ordinary (.leaf (number 5)) [(.minus, .leaf (number 3)),
      (.plus, .leaf (number 7)), (.plus, .leaf (number 2)),
      (.times, .leaf (number 4))]).value = .ok (number 17) := by decide +kernel
  exact ⟨hlast, hreading, (((level_value l).1 hlast).1 _).2 hreading⟩

end MatrixCalc
