import MatrixCalc.Proofs.Outline.Grouping
import MatrixCalc.Proofs.Text.Drafting
import MatrixCalc.Proofs.Text.Items

/-!
# Texts of expressions

`Token.Spells` says how a text writes down the items of an expression: operators and well-formed
literals, with spaces between them or without. If the items follow the grammar, such a text is read
without fault and reduced without fault, so that all that can go wrong with it is that shapes do not
fit (`evaluate_expression`).
-/

namespace MatrixCalc

universe u

/-! ## §1 Tokens of an expression -/

namespace Token

/-- The operator that a token outside a literal stands for. -/
def operator? : Token → Option Operator
  | word text => (Unary.ofWord? text).map .unary
  | minus => some (.binary .minus)
  | plus => some (.binary .plus)
  | star => some (.binary .times)
  | opening => some .opening
  | closing => some .closing
  | digits _ | literalStart | literalEnd | rowEnd | space => none

/-- `Spells ts items`: the tokens write down the items. -/
inductive Spells : List Token → List (Item Float) → Prop where
  | nil : Spells [] []
  | space {ts : List Token} {items : List (Item Float)} (h : Spells ts items) :
      Spells (.space :: ts) items
  | operator {t : Token} {op : Operator} (ht : t.operator? = some op) {ts : List Token}
      {items : List (Item Float)} (h : Spells ts items) : Spells (t :: ts) (.operator op :: items)
  | literal (cols : Nat) (body : List Token) (hb : IsBody cols body) {ts : List Token}
      {items : List (Item Float)} (h : Spells ts items) :
      Spells (.literalStart :: (body ++ .literalEnd :: ts)) (.operand (matrix cols body) :: items)

theorem stepOutside_of_operator? {t : Token} {op : Operator} (ht : t.operator? = some op)
    (column : Nat) :
    (Reading.stepOutside t column).result = .ok (.outside, some (.operator op)) := by
  cases t with
  | word text =>
    obtain ⟨u, hu, rfl⟩ := Option.map_eq_some_iff.1 ht
    simp only [Reading.stepOutside, Reading.operatorOf, hu]
    rfl
  | minus => cases ht; rfl
  | plus => cases ht; rfl
  | star => cases ht; rfl
  | opening => cases ht; rfl
  | closing => cases ht; rfl
  | digits text => cases ht
  | literalStart => cases ht
  | literalEnd => cases ht
  | rowEnd => cases ht
  | space => cases ht

/-- Tokens that write down some items are read as these items. -/
theorem Spells.items_eq {ts : List Token} {items : List (Item Float)} (h : Spells ts items)
    (hsize : ts.length < DenseMatrix.wordCount) {placed : List Placed}
    (hplaced : placed.map Placed.token = ts) :
    (Reading.items placed .outside).result = .ok (items, .outside) := by
  induction h generalizing placed with
  | nil =>
    obtain rfl : placed = [] := by simpa using hplaced
    rfl
  | space h ih =>
    obtain ⟨p, rest, rfl, hp, hrest⟩ := List.map_eq_cons_iff.1 hplaced
    have hitems := ih (by simp at hsize; omega) hrest
    simp only [Reading.items, Reading.step, Reading.stepOutside, Logged.result_bind, hp,
      Logged.result_pure, Except.bind, hitems]
    rfl
  | operator ht h ih =>
    obtain ⟨p, rest, rfl, hp, hrest⟩ := List.map_eq_cons_iff.1 hplaced
    have hitems := ih (by simp at hsize; omega) hrest
    simp only [Reading.items, Reading.step, stepOutside_of_operator? ht, Logged.result_bind, hp,
      Except.bind, hitems]
    rfl
  | literal cols body hb h ih =>
    rename_i ts items
    have hsplit : placed.map Placed.token =
        (.literalStart :: (body ++ [.literalEnd])) ++ ts := by simpa using hplaced
    obtain ⟨front, rest, rfl, hfront, hrest⟩ := List.map_eq_append_iff.1 hsplit
    simp only [List.length_cons, List.length_append] at hsize
    have hitems := ih (by omega) hrest
    rw [Reading.items_append, Reading.items_literal hb (by omega) hfront]
    simp only [Except.bind, hitems]
    rfl

end Token

/-- A text whose tokens write down some items is read as these items. -/
theorem reads_of_spells {cs : List Char} {ts : List Token} {items : List (Item Float)}
    (hlex : Token.Lexes cs ts) (h : Token.Spells ts items)
    (hsize : cs.length < DenseMatrix.wordCount) : Reads cs items :=
  ⟨ts, hlex, fun _ hplaced =>
    h.items_eq (Nat.lt_of_le_of_lt hlex.length_le hsize) hplaced⟩

/-! ## §2 Faults of a tree -/

/-- A fault of shapes: operands that do not go together, or an inverse of a matrix that is not
square. -/
inductive Fault.IsMisfit : Fault → Prop where
  | unfitOperands (op : Operator) (left right : Shape) :
      IsMisfit (.calculation (.unfitOperands op left right))
  | notSquare (shape : Shape) : IsMisfit (.calculation (.notSquare shape))

theorem Unary.isMisfit_of_apply {α : Type u} [Scalar α] {u : Unary} {a : DenseMatrix α} {f : Fault}
    (h : (u.apply a).result = .error f) : f.IsMisfit := by
  cases u with
  | transpose => cases h
  | ref => cases h
  | rref => cases h
  | inverse =>
    unfold Unary.apply DenseMatrix.inverse at h
    by_cases hsquare : a.isSquare = true
    · simp [hsquare] at h
    · simp only [hsquare] at h
      cases h
      exact .notSquare _

theorem isMisfit_of_zipEntries {α : Type u} {op : Binary} {g : α → α → α}
    {left right : DenseMatrix α} {f : CalcFault}
    (h : DenseMatrix.zipEntries op g left right = .error f) : (Fault.calculation f).IsMisfit := by
  unfold DenseMatrix.zipEntries at h
  split at h
  · cases h
  · cases h
    exact .unfitOperands _ _ _

theorem Binary.isMisfit_of_apply {α : Type u} [Scalar α] {b : Binary} {left right : DenseMatrix α}
    {f : CalcFault} (h : b.apply left right = .error f) : (Fault.calculation f).IsMisfit := by
  cases b with
  | times =>
    change left.mul right = .error f at h
    unfold DenseMatrix.mul at h
    split at h
    · cases h
    · cases h
      exact .unfitOperands _ _ _
  | minus => exact isMisfit_of_zipEntries h
  | plus => exact isMisfit_of_zipEntries h

/-- A tree has operands for all its operators, so only shapes can be wrong with it. -/
theorem Tree.isMisfit_of_value {α : Type u} [Scalar α] {t : Tree (DenseMatrix α)} {f : Fault}
    (h : t.value = .error f) : f.IsMisfit := by
  induction t generalizing f with
  | leaf a => cases h
  | unary op t ih =>
    rw [value_unary] at h
    rcases bind_eq_error_iff.1 h with ht | ⟨a, -, ha⟩
    · exact ih ht
    · exact Unary.isMisfit_of_apply ha
  | binary op l r ihl ihr =>
    rw [value_binary] at h
    rcases bind_eq_error_iff.1 h with hl | ⟨a, -, h⟩
    · exact ihl hl
    rcases bind_eq_error_iff.1 h with hr | ⟨b, -, h⟩
    · exact ihr hr
    cases hb : op.apply a b with
    | ok c =>
      rw [hb] at h
      cases h
    | error g =>
      rw [hb] at h
      cases h
      exact Binary.isMisfit_of_apply hb

/-! ## §3 Texts that follow the grammar -/

/-- A text that follows the grammar fails only if shapes do not fit. Its value is that of a full
parenthesization: the items stand in the tree as they do in the text, a group in brackets is a
subtree, and a unary operator is applied to the literal or the group right after it alone. A text in
memory has fewer than `2 ^ 64` characters, so the entries of its literals can be counted. -/
theorem evaluate_expression {source : String} {placed : List Placed} {c : Chain Float}
    (hlex : Token.lex source = .ok placed)
    (hspells : Token.Spells (placed.map Placed.token) c.items)
    (hsize : source.length < DenseMatrix.wordCount) :
    (∀ f, (evaluate source).result = .error f → f.IsMisfit) ∧
    ∃ t : Tree (DenseMatrix Float),
      (evaluate source).result = t.value ∧
      Grouped .chain c.items t ∧
      t.inorder = c.items.filter (!·.isBracket) := by
  have hreads : Reads source.toList c.items := by
    refine reads_of_spells (Token.lexes_of_lexFrom hlex) hspells ?_
    rwa [String.length_toList]
  obtain ⟨t, ht, hg⟩ := Outline.exists_grouped c
  have hvalue : (evaluate source).result = t.value :=
    (result_evaluate hreads).trans (Outline.result_evaluateItems ht)
  constructor
  · intro f hf
    exact Tree.isMisfit_of_value (hvalue.symm.trans hf)
  · exact ⟨t, hvalue, hg, hg.inorder_eq⟩

/-- A group under a unary operator, a sign within a literal, and spaces. -/
theorem evaluate_expression_group :
    let left : List Token := [.digits "1", .rowEnd, .minus, .digits "2"]
    let right : List Token := [.digits ".5", .space, .rowEnd, .space, .digits "0."]
    let c : Chain Float :=
      .cons (.group (some .ref) (.last (.operand none (Token.matrix 1 left)))) .minus
        (.last (.operand none (Token.matrix 1 right)))
    let source := "ref([1;-2]) - [.5 ; 0.]"
    (∀ f, (evaluate source).result = .error f → f.IsMisfit) ∧
      ∃ t : Tree (DenseMatrix Float),
        (evaluate source).result = t.value ∧
        Grouped .chain c.items t ∧
        t.inorder = c.items.filter (!·.isBracket) := by
  intro left right c source
  let placed : List Placed := [⟨.word "ref", 0⟩, ⟨.opening, 3⟩, ⟨.literalStart, 4⟩,
    ⟨.digits "1", 5⟩, ⟨.rowEnd, 6⟩, ⟨.minus, 7⟩, ⟨.digits "2", 8⟩, ⟨.literalEnd, 9⟩,
    ⟨.closing, 10⟩, ⟨.space, 11⟩, ⟨.minus, 12⟩, ⟨.space, 13⟩, ⟨.literalStart, 14⟩,
    ⟨.digits ".5", 15⟩, ⟨.space, 17⟩, ⟨.rowEnd, 18⟩, ⟨.space, 19⟩, ⟨.digits "0.", 20⟩,
    ⟨.literalEnd, 22⟩]
  have hlex : Token.lex source = .ok placed := by decide +kernel
  have hleft : Token.IsBody 1 left := by
    constructor <;> decide +kernel
  have hright : Token.IsBody 1 right := by
    constructor <;> decide +kernel
  have hspells : Token.Spells (placed.map Placed.token) c.items :=
    .operator rfl <| .operator rfl <| .literal 1 left hleft <| .operator rfl <|
      .space <| .operator rfl <| .space <| .literal 1 right hright .nil
  exact evaluate_expression hlex hspells (by decide +kernel)

end MatrixCalc
