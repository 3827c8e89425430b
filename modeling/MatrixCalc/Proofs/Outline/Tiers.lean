import Mathlib.Data.List.TakeWhile
import MatrixCalc.Proofs.Outline.Precedence

/-!
# Expressions read by precedence

`Tiered` is the usual reading of an expression: a sum of products of terms, where `*` is applied
before any `+` or `-` next to it. Expressions with plain factors are read so, and the waiting
operators keep every `*` on top all along; an expression without plain factors leaves a `*` below a
`+` or `-` (`products_before_sums`).

§1 tiers · §2 what waits between two terms · §3 whole expressions · §4 the stacks
-/

namespace MatrixCalc

universe u

variable {α : Type u}

/-! ## §1 Tiers -/

/-- The parts of an expression where `*` binds tighter than `+` and `-`. -/
inductive Tier where
  | atom
  | term
  /-- Terms with `*` between them. -/
  | product
  /-- Products with `+` and `-` between them. -/
  | sum

/-- `Tiered p items t`: the items are a part of an expression, and `t` reads them with products
before sums. In which order the operators of one tier are applied is left open. -/
inductive Tiered : Tier → List (Item α) → Tree (DenseMatrix α) → Prop where
  | operand (a : DenseMatrix α) : Tiered .atom [.operand a] (.leaf a)
  | group {items : List (Item α)} {t : Tree (DenseMatrix α)} (h : Tiered .sum items t) :
      Tiered .atom (.operator .opening :: (items ++ [.operator .closing])) t
  | plain {items : List (Item α)} {t : Tree (DenseMatrix α)} (h : Tiered .atom items t) :
      Tiered .term items t
  | unary (u : Unary) {items : List (Item α)} {t : Tree (DenseMatrix α)}
      (h : Tiered .atom items t) : Tiered .term (.operator (.unary u) :: items) (.unary u t)
  | factor {items : List (Item α)} {t : Tree (DenseMatrix α)} (h : Tiered .term items t) :
      Tiered .product items t
  | times {xs ys : List (Item α)} {l r : Tree (DenseMatrix α)} (hl : Tiered .product xs l)
      (hr : Tiered .product ys r) :
      Tiered .product (xs ++ .operator (.binary .times) :: ys) (.binary .times l r)
  | summand {items : List (Item α)} {t : Tree (DenseMatrix α)} (h : Tiered .product items t) :
      Tiered .sum items t
  | sum (b : Binary) (hb : b ≠ .times) {xs ys : List (Item α)} {l r : Tree (DenseMatrix α)}
      (hl : Tiered .sum xs l) (hr : Tiered .sum ys r) :
      Tiered .sum (xs ++ .operator (.binary b) :: ys) (.binary b l r)

namespace Outline

/-! ## §2 What waits between two terms -/

/-- The items end with a `+` or `-`, and the trees are the sums between such operators. -/
inductive Sums : List (Item α) → List Operator → List (Tree (DenseMatrix α)) → Prop where
  | start : Sums [] [] []
  | next (b : Binary) (hb : b ≠ .times) {xs ys : List (Item α)} {operators : List Operator}
      {t : Tree (DenseMatrix α)} {trees : List (Tree (DenseMatrix α))}
      (h : Sums xs operators trees) (hg : Tiered .sum ys t) :
      Sums (xs ++ (ys ++ [.operator (.binary b)])) (.binary b :: operators) (t :: trees)

/-- The last tree is a sum, and below it there are sums only. -/
inductive Summed : List (Item α) → List Operator → List (Tree (DenseMatrix α)) → Prop where
  | mk {xs ys : List (Item α)} {operators : List Operator} {t : Tree (DenseMatrix α)}
      {trees : List (Tree (DenseMatrix α))} (h : Sums xs operators trees)
      (hg : Tiered .sum ys t) : Summed (xs ++ ys) operators (t :: trees)

/-- The last trees are products with `*` waiting between them, and below them there are sums. -/
inductive Products : List (Item α) → List Operator → List (Tree (DenseMatrix α)) → Prop where
  | first {xs ys : List (Item α)} {operators : List Operator} {t : Tree (DenseMatrix α)}
      {trees : List (Tree (DenseMatrix α))} (h : Sums xs operators trees)
      (hg : Tiered .product ys t) : Products (xs ++ ys) operators (t :: trees)
  | next {xs ys : List (Item α)} {operators : List Operator} {t : Tree (DenseMatrix α)}
      {trees : List (Tree (DenseMatrix α))} (h : Products xs operators trees)
      (hg : Tiered .product ys t) :
      Products (xs ++ .operator (.binary .times) :: ys) (.binary .times :: operators) (t :: trees)

variable {items : List (Item α)} {operators : List Operator} {trees : List (Tree (DenseMatrix α))}

theorem Sums.eq_binary (h : Sums items operators trees) :
    ∀ op ∈ operators, ∃ b : Binary, b ≠ .times ∧ op = .binary b := by
  induction h with
  | start => simp
  | next b hb h hg ih =>
    intro op hop
    rcases List.mem_cons.1 hop with rfl | hop
    · exact ⟨b, hb, rfl⟩
    · exact ih op hop

theorem Summed.eq_binary (h : Summed items operators trees) :
    ∀ op ∈ operators, ∃ b : Binary, b ≠ .times ∧ op = .binary b := by
  cases h with
  | mk h hg => exact h.eq_binary

theorem Sums.times_not_mem (h : Sums items operators trees) : .binary .times ∉ operators := by
  intro hm
  obtain ⟨b, hb, heq⟩ := h.eq_binary _ hm
  cases heq
  exact hb rfl

theorem Products.level_eq (h : Products items operators trees) :
    Operator.level operators = operators := by
  have hbinary : ∀ op ∈ operators, ∃ b : Binary, op = .binary b := by
    induction h with
    | first h hg =>
      intro op hop
      obtain ⟨b, -, rfl⟩ := h.eq_binary op hop
      exact ⟨b, rfl⟩
    | next h hg ih => simpa using ih
  refine List.takeWhile_eq_self_iff.2 fun op hop => ?_
  obtain ⟨b, rfl⟩ := hbinary op hop
  rfl

/-- Where no `*` waits, the last product is a sum by itself. -/
theorem Products.summed (h : Products items operators trees) (hm : .binary .times ∉ operators) :
    Summed items operators trees := by
  cases h with
  | first h hg => exact .mk h (.summand hg)
  | next h hg => simp at hm

theorem Products.join (h : Products items (.binary .times :: operators) trees) :
    ∃ joined, Outline.join (.binary .times) trees = some joined ∧
      Products items operators joined := by
  cases h with
  | first h hg => exact absurd h.times_not_mem (by simp)
  | next h hr =>
    cases h with
    | first h hl => exact ⟨_, rfl, by rw [List.append_assoc]; exact .first h (.times hl hr)⟩
    | next h hl =>
      refine ⟨_, rfl, ?_⟩
      rw [List.append_assoc, List.cons_append]
      exact .next h (.times hl hr)

theorem Summed.join {op : Operator} (h : Summed items (op :: operators) trees) :
    ∃ joined, Outline.join op trees = some joined ∧ Summed items operators joined := by
  cases h with
  | mk h hr =>
    cases h with
    | next b hb h hl =>
      refine ⟨_, rfl, ?_⟩
      rw [List.append_assoc, List.append_assoc, List.cons_append, List.nil_append]
      exact .mk h (.sum b hb hl hr)

theorem Summed.drain (h : Summed items operators trees) :
    ∃ t, Outline.drain operators trees = some [t] ∧ Tiered .sum items t := by
  induction operators generalizing trees with
  | nil =>
    cases h with
    | mk h hg =>
      cases h with
      | start => exact ⟨_, rfl, hg⟩
  | cons op operators ih =>
    obtain ⟨joined, hj, hs⟩ := h.join
    obtain ⟨t, ht, hg⟩ := ih hs
    exact ⟨t, by rw [Outline.drain, hj]; exact ht, hg⟩

/-- The last operator that waits is a `*`, or no `*` waits at all. -/
theorem Products.times_or_summed {op : Operator} (h : Products items (op :: operators) trees) :
    op = .binary .times ∨ Summed items (op :: operators) trees := by
  cases h with
  | first h hg => exact .inr (.mk h (.summand hg))
  | next h hg => exact .inl rfl

theorem Products.drain (h : Products items operators trees) :
    ∃ t, Outline.drain operators trees = some [t] ∧ Tiered .sum items t := by
  induction operators generalizing trees with
  | nil => exact (h.summed (by simp)).drain
  | cons op operators ih =>
    rcases h.times_or_summed with rfl | hs
    · obtain ⟨joined, hj, hp⟩ := h.join
      obtain ⟨t, ht, hg⟩ := ih hp
      exact ⟨t, by rw [Outline.drain, hj]; exact ht, hg⟩
    · exact hs.drain

/-- Where an outline stands before a term: after a `+` or `-` or at the beginning, or after a `*`.
-/
inductive BeforeFactor : List (Item α) → Outline α → Prop where
  | sum {items : List (Item α)} {operators : List Operator} {trees : List (Tree (DenseMatrix α))}
      (h : Sums items operators trees) : BeforeFactor items ⟨operators, trees⟩
  | times {items : List (Item α)} {operators : List Operator} {trees : List (Tree (DenseMatrix α))}
      (h : Products items operators trees) :
      BeforeFactor (items ++ [.operator (.binary .times)]) ⟨.binary .times :: operators, trees⟩

/-- Where an outline stands after a term. -/
def AfterFactor (items : List (Item α)) (o : Outline α) : Prop :=
  ∃ u? t below, o = hold u? t below ∧ Products items below.operators (wrap u? t :: below.trees)

theorem beforeFactor_empty : BeforeFactor [] (empty : Outline α) := .sum .start

theorem BeforeFactor.free {o : Outline α} (h : BeforeFactor items o) : o.Free := by
  cases h with
  | sum h =>
    cases h with
    | start => exact free_empty
    | next b hb h hg => exact free_binary b _ _
  | times h => exact free_binary .times _ _

theorem BeforeFactor.after {o : Outline α} {ys : List (Item α)} {u? : Option Unary}
    {t : Tree (DenseMatrix α)} (h : BeforeFactor items o) (hg : Tiered .term ys (wrap u? t)) :
    AfterFactor (items ++ ys) (hold u? t o) := by
  refine ⟨u?, t, o, rfl, ?_⟩
  cases h with
  | sum h => exact .first h (.factor hg)
  | times h =>
    rw [List.append_assoc]
    exact .next h (.factor hg)

theorem Summed.before {b : Binary} (hb : b ≠ .times) (h : Summed items operators trees) :
    BeforeFactor (items ++ [.operator (.binary b)]) ⟨.binary b :: operators, trees⟩ := by
  cases h with
  | mk h hg =>
    rw [List.append_assoc]
    exact .sum (.next b hb h hg)

theorem Products.before {b : Binary} (hb : b ≠ .times → .binary .times ∉ operators)
    (h : Products items operators trees) :
    BeforeFactor (items ++ [.operator (.binary b)]) ⟨.binary b :: operators, trees⟩ := by
  by_cases htimes : b = .times
  · subst htimes
    exact .times h
  · exact (h.summed (hb htimes)).before htimes

theorem AfterFactor.finish {o : Outline α} (h : AfterFactor items o) :
    ∃ t, o.finish = some t ∧ Tiered .sum items t := by
  obtain ⟨u?, t, below, rfl, hp⟩ := h
  obtain ⟨s, hs, hg⟩ := hp.drain
  exact ⟨s, by rw [Outline.finish, drain_hold, hs], hg⟩

/-- After a binary operator the outline stands before a term again, unless a `*` is left below it.
-/
theorem AfterFactor.feed {o : Outline α} {b : Binary} (h : AfterFactor items o)
    (htop : ∀ w ∈ Operator.arrive (.binary b) o.operators, Operator.ProductsOnTop w) :
    ∃ o', o.feed (.operator (.binary b)) = some o' ∧
      BeforeFactor (items ++ [.operator (.binary b)]) o' := by
  -- a `*` that does not wait on the level of the last operator does not wait at all
  have hbefore : ∀ {operators : List Operator} {trees : List (Tree (DenseMatrix α))},
      o.feed (.operator (.binary b)) = some ⟨.binary b :: operators, trees⟩ →
      Products items operators trees →
      BeforeFactor (items ++ [.operator (.binary b)]) ⟨.binary b :: operators, trees⟩ := by
    intro operators trees hfeed hp
    refine hp.before fun hb => ?_
    have hops := htop _ (operators_feed hfeed)
    rw [← hp.level_eq]
    exact (Operator.productsOnTop_cons.1 hops).1 b rfl hb
  obtain ⟨u?, t, ⟨operators, trees⟩, rfl, hp⟩ := h
  cases u? with
  | some u =>
    have hfeed := feed_hold_some u t ⟨operators, trees⟩ b
    exact ⟨_, hfeed, hbefore hfeed hp⟩
  | none =>
    cases operators with
    | nil =>
      have hfeed : (hold none t ⟨[], trees⟩).feed (.operator (.binary b)) =
          some ⟨[.binary b], t :: trees⟩ := pushOperator_waits (by simp) (by simp [hold])
      exact ⟨_, hfeed, hbefore hfeed hp⟩
    | cons top below =>
      cases hwait : Stacks.waitsAbove (.binary b) top with
      | true =>
        have hfeed : (hold none t ⟨top :: below, trees⟩).feed (.operator (.binary b)) =
            some ⟨.binary b :: top :: below, t :: trees⟩ :=
          pushOperator_waits (by simp) (by simpa [hold] using hwait)
        exact ⟨_, hfeed, hbefore hfeed hp⟩
      | false =>
        rcases hp.times_or_summed with rfl | hs
        · obtain ⟨joined, hj, hp'⟩ := hp.join
          have hfeed : (hold none t ⟨.binary .times :: below, trees⟩).feed (.operator (.binary b)) =
              some ⟨.binary b :: below, joined⟩ := pushOperator_joins (by simp) hwait hj
          exact ⟨_, hfeed, hbefore hfeed hp'⟩
        · -- a `+` or `-` is joined, so the operator that came is not a `*`
          have hb : b ≠ .times := by
            rintro rfl
            obtain ⟨c, hc, rfl⟩ := hs.eq_binary top List.mem_cons_self
            cases c <;> first | exact hc rfl | exact absurd hwait (by decide)
          obtain ⟨joined, hj, hs'⟩ := hs.join
          exact ⟨_, pushOperator_joins (by simp) hwait hj, hs'.before hb⟩

/-! ## §3 Whole expressions -/

theorem tiered_wrap {items : List (Item α)} {t : Tree (DenseMatrix α)} (u? : Option Unary)
    (h : Tiered .atom items t) : Tiered .term (Unary.optionItems u? ++ items) (wrap u? t) := by
  cases u? with
  | none => exact .plain h
  | some u => exact .unary u h

theorem BeforeFactor.after_term {xs : List (Item α)} {o : Outline α} (h : BeforeFactor xs o)
    {T : Term α} {t : Tree (DenseMatrix α)} (hg : Tiered .atom T.atomItems t) :
    AfterFactor (xs ++ T.items) (hold T.unary? t o) := by
  rw [T.items_eq]
  exact h.after (tiered_wrap T.unary? hg)

open Operator (ProductsOnTop)

mutual

theorem tiered_atomItems : ∀ T : Term α, T.PlainFactors →
    ∃ t, Tiered .atom T.atomItems t ∧ ∀ o, feedAll T.atomItems o = some (o.pushTree t)
  | .operand _ a, _ => ⟨.leaf a, .operand a, fun _ => rfl⟩
  | .group _ inner, hplain => by
      have htop := (Item.throughout_expression_iff inner).2 hplain
      obtain ⟨o, ho, ha⟩ := feedAll_tiers inner hplain beforeFactor_empty htop
      obtain ⟨t, ht, hg⟩ := ha.finish
      exact ⟨t, .group hg, feedAll_group (by rw [ofItems?, ho]; exact ht)⟩

theorem feedAll_tiers : ∀ (c : Chain α) {xs : List (Item α)} {o : Outline α}, c.PlainFactors →
    BeforeFactor xs o → Item.Throughout ProductsOnTop c.items o.operators →
    ∃ o', feedAll c.items o = some o' ∧ AfterFactor (xs ++ c.items) o'
  | .last T, xs, o, hplain, h, _ => by
      obtain ⟨t, hg, hfeed⟩ := tiered_atomItems T hplain
      rw [Chain.items]
      exact ⟨_, h.free.feedAll_term hfeed, h.after_term hg⟩
  | .cons T b rest, xs, o, hplain, h, htop => by
      obtain ⟨hT, hR, -⟩ := hplain
      obtain ⟨t, hg, hfeed⟩ := tiered_atomItems T hT
      have hterm := h.free.feedAll_term hfeed
      rw [Chain.items] at htop ⊢
      -- after the term and its operator the waiting operators are still in order
      have hnext := (Item.throughout_append.1 htop).2 _ (operators_feedAll hterm)
      obtain ⟨p, hp, hbefore⟩ := (h.after_term hg).feed fun w hw => (hnext.2 w hw).here
      have hrest := hnext.2 _ (operators_feed hp)
      obtain ⟨o', ho', hdone⟩ := feedAll_tiers rest hR hbefore hrest
      refine ⟨o', ?_, ?_⟩
      · rw [feedAll_append, hterm, Option.bind_some, feedAll_cons, hp]
        exact ho'
      · simpa [List.append_assoc] using hdone

end

/-- An expression with plain factors comes down to a tree that reads it by precedence. -/
theorem exists_tiered {c : Chain α} (h : c.PlainFactors) :
    ∃ t, ofItems? c.items = some t ∧ Tiered .sum c.items t := by
  have htop := (Item.throughout_expression_iff c).2 h
  obtain ⟨o, ho, ha⟩ := feedAll_tiers c h beforeFactor_empty htop
  obtain ⟨t, ht, hg⟩ := ha.finish
  exact ⟨t, by rw [ofItems?, ho]; exact ht, hg⟩

end Outline

/-! ## §4 The stacks -/

/-- If only first factors of a product before a `+` or `-` have unary operators, no `*` ever waits
below a `+` or `-` of its level, and the value is that of a tree with products before sums. No other
expression whose items all arrive without a fault keeps its products on top. -/
theorem products_before_sums [Scalar α] (c : Chain α) :
    (c.PlainFactors →
      (∀ pre, pre <+: c.items →
        Operator.ProductsOnTop ((Stacks.empty : Stacks α).feedAll pre).state.operators) ∧
      ∃ t, (evaluateItems c.items).result = t.value ∧ Tiered .sum c.items t) ∧
    (((Stacks.empty : Stacks α).feedAll c.items).fault? = none →
      (∀ pre, pre <+: c.items →
        Operator.ProductsOnTop ((Stacks.empty : Stacks α).feedAll pre).state.operators) →
      c.PlainFactors) := by
  constructor
  · intro hplain
    have htop := (Item.throughout_expression_iff c).2 hplain
    constructor
    · rintro pre ⟨rest, hrest⟩
      rw [← hrest] at htop
      have hpre : Item.Throughout Operator.ProductsOnTop pre [] := (Item.throughout_append.1 htop).1
      exact Stacks.state_feedAll (fun h hs => h.suffix hs) hpre
    · obtain ⟨t, ht, hg⟩ := Outline.exists_tiered hplain
      exact ⟨t, Outline.result_evaluateItems ht, hg⟩
  · intro hok htop
    exact (Item.throughout_expression_iff c).1 (Stacks.throughout_of_states hok htop)

/-- A unary operator on the first factor leaves the product on top. -/
theorem products_before_sums_of_ref_first :
    let number (x : Float) : DenseMatrix Float := ⟨⟨1, 1⟩, #[x]⟩
    let c : Chain Float := .cons (.operand (some .ref) (number 2)) .times
      (.cons (.operand none (number 3)) .plus (.last (.operand none (number 4))))
    ((Stacks.empty : Stacks Float).feedAll c.items).fault? = none ∧
      (∀ pre, pre <+: c.items →
        Operator.ProductsOnTop ((Stacks.empty : Stacks Float).feedAll pre).state.operators) ∧
      c.PlainFactors ∧
      (∃ t, (evaluateItems c.items).result = t.value ∧ Tiered .sum c.items t) ∧
      (evaluateItems c.items).result = .ok (number 10) := by
  intro number c
  have hok : ((Stacks.empty : Stacks Float).feedAll c.items).fault? = none := by decide +kernel
  obtain ⟨htop, htree⟩ := (products_before_sums c).1
    (by simp [c, Chain.PlainFactors, Term.PlainFactors, Term.unary?])
  exact ⟨hok, htop, (products_before_sums c).2 hok htop, htree, by decide +kernel⟩

/-- A unary operator on a later factor leaves the product below the sum: two times the sum of three
and four. -/
theorem sum_before_product :
    let number (x : Float) : DenseMatrix Float := ⟨⟨1, 1⟩, #[x]⟩
    let c : Chain Float := .cons (.operand none (number 2)) .times
      (.cons (.operand (some .ref) (number 3)) .plus (.last (.operand none (number 4))))
    ¬ Operator.ProductsOnTop ((Stacks.empty : Stacks Float).feedAll c.items).state.operators ∧
      (evaluateItems c.items).result = .ok (number 14) := by
  intro number c
  refine ⟨fun h => ?_, by decide +kernel⟩
  have hwait : ((Stacks.empty : Stacks Float).feedAll c.items).state.operators =
      [.binary .plus, .binary .times] := by decide +kernel
  exact h .plus [.binary .times] (by simp) (hwait ▸ List.suffix_rfl) (by decide)

end MatrixCalc
