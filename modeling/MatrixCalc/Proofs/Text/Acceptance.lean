import MatrixCalc.Proofs.Outline.Counting
import MatrixCalc.Proofs.Text.Expressions

/-!
# Texts that have a value

A text has a value only if its operators are served (`Item.Served`), and with served operators only
shapes can be wrong. The grammar of expressions asks for more: by the counts alone an operator may
follow its operands, and a group may be empty (`evaluate_beyond_grammar`).
-/

namespace MatrixCalc

universe u

/-! ## §1 The items of a text -/

/-- The items that a text is read as. -/
def Emits (source : String) (items : List (Item Float)) : Prop :=
  ∃ placed, Token.lex source = .ok placed ∧
    (Reading.items placed .outside).result = .ok (items, .outside)

theorem emits_of_reads {source : String} {items : List (Item Float)}
    (h : Reads source.toList items) : Emits source items := by
  obtain ⟨ts, hts, hread⟩ := h
  obtain ⟨placed, hplaced, rfl⟩ := hts.exists_lexFrom 0
  exact ⟨placed, hplaced, hread placed rfl⟩

theorem Emits.result_evaluate {source : String} {items : List (Item Float)}
    (h : Emits source items) : (evaluate source).result = (evaluateItems items).result := by
  obtain ⟨placed, hlex, hread⟩ := h
  exact MatrixCalc.result_evaluate (reads_of_lex hlex hread)

theorem emits_of_spells {source : String} {placed : List Placed} {items : List (Item Float)}
    (hlex : Token.lex source = .ok placed)
    (hspells : Token.Spells (placed.map Placed.token) items)
    (hsize : source.length < DenseMatrix.wordCount) : Emits source items := by
  have hlen := (Token.lexes_of_lexFrom hlex).length_le
  rw [String.length_toList] at hlen
  exact ⟨placed, hlex, hspells.items_eq (by omega) rfl⟩

theorem Emits.unique {source : String} {xs ys : List (Item Float)} (hx : Emits source xs)
    (hy : Emits source ys) : xs = ys := by
  obtain ⟨placed, hlex, hread⟩ := hx
  obtain ⟨placed', hlex', hread'⟩ := hy
  cases hlex.symm.trans hlex'
  cases hread.symm.trans hread'
  rfl

/-! ## §2 Served operators -/

/-- Whatever has a value has served operators, in any order the counts allow. Items with served
operators fail only where shapes do not fit, and all others fail. -/
theorem evaluate_served (source : String) :
    (∀ a, (evaluate source).result = .ok a → ∃ items, Emits source items ∧ Item.Served items) ∧
    ∀ items, Emits source items →
      (Item.Served items → ∀ f, (evaluate source).result = .error f → f.IsMisfit) ∧
      (¬ Item.Served items → ∃ f, (evaluate source).result = .error f) := by
  constructor
  · intro a ha
    obtain ⟨items, hreads, hvalue⟩ := exists_reads ha
    obtain ⟨t, ht⟩ := Outline.exists_ofItems? hvalue
    exact ⟨items, emits_of_reads hreads, Outline.served_of_ofItems? ht⟩
  · intro items hemits
    rw [hemits.result_evaluate]
    constructor
    · intro hserved f hf
      obtain ⟨t, ht⟩ := Outline.exists_ofItems?_iff_served.2 hserved
      rw [Outline.result_evaluateItems ht] at hf
      exact Tree.isMisfit_of_value hf
    · intro hserved
      cases hvalue : (evaluateItems items).result with
      | error f => exact ⟨f, rfl⟩
      | ok a =>
        exact absurd (Outline.exists_ofItems?_iff_served.1 (Outline.exists_ofItems? hvalue)) hserved

/-- Two operands before their operator are added; one operand leaves it without another. -/
theorem evaluate_served_postfix :
    let one : Item Float := .operand (Token.matrix 1 [.digits "1"])
    let two : Item Float := .operand (Token.matrix 1 [.digits "2"])
    let plus : Item Float := .operator (.binary .plus)
    (evaluate "[1][2]+").result = .ok ⟨⟨1, 1⟩, #[3]⟩ ∧ Item.Served [one, two, plus] ∧
      ¬ Item.Served [one, plus] ∧ ∃ f, (evaluate "[1]+").result = .error f := by
  intro one two plus
  have hone : Token.IsBody 1 [.digits "1"] := by constructor <;> decide +kernel
  have htwo : Token.IsBody 1 [.digits "2"] := by constructor <;> decide +kernel
  have hpostfix : Emits "[1][2]+" [one, two, plus] := by
    have hlex : Token.lex "[1][2]+" = .ok [⟨.literalStart, 0⟩, ⟨.digits "1", 1⟩, ⟨.literalEnd, 2⟩,
        ⟨.literalStart, 3⟩, ⟨.digits "2", 4⟩, ⟨.literalEnd, 5⟩, ⟨.plus, 6⟩] := by decide +kernel
    refine emits_of_spells hlex ?_ (by decide +kernel)
    exact .literal 1 _ hone <| .literal 1 _ htwo <| .operator rfl .nil
  have hhalf : Emits "[1]+" [one, plus] := by
    have hlex : Token.lex "[1]+" = .ok [⟨.literalStart, 0⟩, ⟨.digits "1", 1⟩, ⟨.literalEnd, 2⟩,
        ⟨.plus, 3⟩] := by decide +kernel
    refine emits_of_spells hlex ?_ (by decide +kernel)
    exact .literal 1 _ hone <| .operator rfl .nil
  have hvalue : (evaluate "[1][2]+").result = .ok ⟨⟨1, 1⟩, #[3]⟩ := by decide +kernel
  obtain ⟨items, hitems, hserved⟩ := (evaluate_served "[1][2]+").1 _ hvalue
  obtain rfl := hitems.unique hpostfix
  have hhalfServed : ¬ Item.Served [one, plus] := fun h => absurd h.leftOne (by decide)
  exact ⟨hvalue, hserved, hhalfServed, ((evaluate_served "[1]+").2 _ hhalf).2 hhalfServed⟩

/-! ## §3 What the grammar asks for -/

namespace Item

variable {α : Type u}

/-- Whether a term has to come after an item, given whether one had to come before it. The grammar
has no other items there. -/
def expects? : Bool → Item α → Option Bool
  | true, .operand _ => some false
  | true, .operator .opening | true, .operator (.unary _) => some true
  | false, .operator (.binary _) => some true
  | false, .operator .closing => some false
  | _, _ => none

def expectsAfter : List (Item α) → Bool → Option Bool
  | [], b => some b
  | item :: items, b => (expects? b item).bind (expectsAfter items)

theorem expectsAfter_append (xs ys : List (Item α)) (b : Bool) :
    expectsAfter (xs ++ ys) b = (expectsAfter xs b).bind (expectsAfter ys) := by
  induction xs generalizing b with
  | nil => rfl
  | cons x xs ih =>
    rw [List.cons_append, expectsAfter, expectsAfter, Option.bind_assoc]
    exact Option.bind_congr fun b' _ => ih b'

theorem expectsAfter_cons (item : Item α) (items : List (Item α)) (b : Bool) :
    expectsAfter (item :: items) b = (expects? b item).bind (expectsAfter items) := rfl

theorem expectsAfter_optionItems (u? : Option Unary) :
    expectsAfter (Unary.optionItems u? : List (Item α)) true = some true := by
  cases u? <;> rfl

mutual

theorem expectsAfter_term : ∀ T : Term α, expectsAfter T.items true = some false
  | .operand u? a => by
      rw [Term.items, expectsAfter_append, expectsAfter_optionItems]
      rfl
  | .group u? inner => by
      rw [Term.items, expectsAfter_append, expectsAfter_optionItems, Option.bind_some,
        expectsAfter_cons]
      show expectsAfter (inner.items ++ [.operator .closing]) true = some false
      rw [expectsAfter_append, expectsAfter_chain inner]
      rfl

/-- An expression ends with a term. -/
theorem expectsAfter_chain : ∀ c : Chain α, expectsAfter c.items true = some false
  | .last T => expectsAfter_term T
  | .cons T b rest => by
      rw [Chain.items, expectsAfter_append, expectsAfter_term T, Option.bind_some,
        expectsAfter_cons]
      exact expectsAfter_chain rest

end

end Item

/-- The text has a value though its items are no expression. -/
def EvaluatesBeyondGrammar (source : String) : Prop :=
  (∃ a, (evaluate source).result = .ok a) ∧ ∃ items, Emits source items ∧ ¬ IsExpression items

/-- A binary operator and a unary operator after their operands, and an empty group. -/
theorem evaluate_beyond_grammar :
    EvaluatesBeyondGrammar "[1][2]+" ∧ EvaluatesBeyondGrammar "[1]ref" ∧
      EvaluatesBeyondGrammar "()[1]" := by
  have hone : Token.IsBody 1 [.digits "1"] := by constructor <;> decide +kernel
  have htwo : Token.IsBody 1 [.digits "2"] := by constructor <;> decide +kernel
  have hno : ∀ items : List (Item Float), Item.expectsAfter items true ≠ some false →
      ¬ IsExpression items := by
    rintro items h ⟨c, rfl⟩
    exact h (Item.expectsAfter_chain c)
  let one : Item Float := .operand (Token.matrix 1 [.digits "1"])
  let two : Item Float := .operand (Token.matrix 1 [.digits "2"])
  refine ⟨⟨⟨⟨⟨1, 1⟩, #[3]⟩, by decide +kernel⟩, [one, two, .operator (.binary .plus)], ?_, ?_⟩,
    ⟨⟨⟨⟨1, 1⟩, #[1]⟩, by decide +kernel⟩, [one, .operator (.unary .ref)], ?_, ?_⟩,
    ⟨⟨⟨1, 1⟩, #[1]⟩, by decide +kernel⟩, [.operator .opening, .operator .closing, one], ?_, ?_⟩
  · have hlex : Token.lex "[1][2]+" = .ok [⟨.literalStart, 0⟩, ⟨.digits "1", 1⟩, ⟨.literalEnd, 2⟩,
        ⟨.literalStart, 3⟩, ⟨.digits "2", 4⟩, ⟨.literalEnd, 5⟩, ⟨.plus, 6⟩] := by decide +kernel
    refine emits_of_spells hlex ?_ (by decide +kernel)
    exact .literal 1 _ hone <| .literal 1 _ htwo <| .operator rfl .nil
  · exact hno _ (by decide)
  · have hlex : Token.lex "[1]ref" = .ok [⟨.literalStart, 0⟩, ⟨.digits "1", 1⟩, ⟨.literalEnd, 2⟩,
        ⟨.word "ref", 3⟩] := by decide +kernel
    refine emits_of_spells hlex ?_ (by decide +kernel)
    exact .literal 1 _ hone <| .operator rfl .nil
  · exact hno _ (by decide)
  · have hlex : Token.lex "()[1]" = .ok [⟨.opening, 0⟩, ⟨.closing, 1⟩, ⟨.literalStart, 2⟩,
        ⟨.digits "1", 3⟩, ⟨.literalEnd, 4⟩] := by decide +kernel
    refine emits_of_spells hlex ?_ (by decide +kernel)
    exact .operator rfl <| .operator rfl <| .literal 1 _ hone .nil
  · exact hno _ (by decide)

end MatrixCalc
