import MatrixCalc.Proofs.Outline.Bracketed
import MatrixCalc.Proofs.Text.Items

/-!
# Brackets in a text

A group bracket never joins a run of characters, so a text keeps its items when brackets are put
around it. Two things follow. A group is one operand wherever it stands (`group_is_operand`); and a
tree that is written with all its brackets has the value of the tree (`result_evaluate_text`).
-/

namespace MatrixCalc

universe u

/-! ## §1 Marks -/

/-- A token outside a literal that is an item by itself. -/
theorem reads_token {cs : List Char} {token : Token} {item : Item Float}
    (hlex : Token.Lexes cs [token])
    (hstep : ∀ column, (Reading.stepOutside token column).result = .ok (.outside, some item)) :
    Reads cs [item] := by
  refine ⟨_, hlex, fun placed hplaced => ?_⟩
  obtain ⟨p, rfl, rfl⟩ := List.map_eq_singleton_iff.1 hplaced
  simp only [Reading.items, Reading.step, Logged.result_bind, hstep]
  rfl

theorem reads_opening : Reads ['('] [.operator .opening] :=
  reads_token (.cons rfl .nil) fun _ => rfl

theorem reads_closing : Reads [')'] [.operator .closing] :=
  reads_token (.cons rfl .nil) fun _ => rfl

theorem reads_word (u : Unary) : Reads u.word.toList [.operator (.unary u)] := by
  obtain ⟨c, cs, width, hword, hcut⟩ : ∃ c cs width, u.word.toList = c :: cs ∧
      Token.cut? c cs = some ⟨.word u.word, width, []⟩ := by
    cases u <;> exact ⟨_, _, _, rfl, rfl⟩
  have hlex : Token.Lexes u.word.toList [.word u.word] := by
    rw [hword]
    exact .cons hcut .nil
  refine reads_token hlex fun column => ?_
  rw [Reading.stepOutside, Reading.operatorOf, Unary.ofWord?_word]
  rfl

theorem reads_sign (b : Binary) : Reads b.sign.toList [.operator (.binary b)] := by
  cases b <;> exact reads_token (.cons rfl .nil) fun _ => rfl

/-! ## §2 Groups -/

theorem Reads.group {cs : List Char} {items : List (Item Float)} (h : Reads cs items) :
    Reads ('(' :: (cs ++ [')'])) (.operator .opening :: (items ++ [.operator .closing])) :=
  reads_opening.append (h.append reads_closing (Token.boundary_of_first rfl cs []))
    (Token.boundary_of_last rfl [] _)

/-- A group that has a value on its own is that one operand wherever it stands: every move succeeds
and the stacks are left as if the operand had arrived. A text with a value keeps it in brackets. -/
theorem group_is_operand :
    (∀ {α : Type u} [Scalar α] (items : List (Item α)) (a : DenseMatrix α) (s : Stacks α),
      (evaluateItems items).result = .ok a →
      let group := s.feedAll (.operator .opening :: (items ++ [.operator .closing]))
      group.fault? = none ∧ group.state = (s.pushOperand a).state) ∧
    (∀ (source : String) (a : DenseMatrix Float),
      (evaluate source).result = .ok a →
      (evaluate ("(" ++ source ++ ")")).result = .ok a) := by
  constructor
  · intro α _ items a s h
    exact Outcome.result_eq_ok_iff.1 (Stacks.result_feedAll_group h s)
  · intro source a h
    obtain ⟨items, hreads, hvalue⟩ := exists_reads h
    have hgroup : Reads ("(" ++ source ++ ")").toList
        (.operator .opening :: (items ++ [.operator .closing])) := by
      simpa using hreads.group
    obtain ⟨t, ht⟩ := Outline.exists_ofItems? hvalue
    have hbracketed : Outline.ofItems? (.operator .opening :: (items ++ [.operator .closing])) =
        some t := by
      rw [Outline.ofItems?, Outline.feedAll_group ht]
      rfl
    rw [result_evaluate hgroup, Outline.result_evaluateItems hbracketed,
      ← Outline.result_evaluateItems ht]
    exact hvalue

/-- The operator words may also stand after their operand, and a group may have an empty group in
it. -/
theorem group_is_operand_postfix :
    let a : DenseMatrix Float := ⟨⟨2, 1⟩, #[1, 2]⟩
    let b : DenseMatrix Float := ⟨⟨1, 2⟩, #[1, 2]⟩
    let items : List (Item Float) :=
      [.operator .opening, .operator .closing, .operand a, .operator (.unary .transpose)]
    let s : Stacks Float := ⟨[.binary .times], [a]⟩
    let group := s.feedAll (.operator .opening :: (items ++ [.operator .closing]))
    (group.fault? = none ∧ group.state = (s.pushOperand b).state) ∧
      (evaluate ("(" ++ "[1;2]transpose()" ++ ")")).result = .ok b := by
  intro a b items s group
  obtain ⟨hstacks, htexts⟩ := group_is_operand.{0}
  have hitems : (evaluateItems items).result = .ok b := by decide +kernel
  have htext : (evaluate "[1;2]transpose()").result = .ok b := by decide +kernel
  exact ⟨hstacks items b s hitems, htexts _ b htext⟩

/-! ## §3 Trees -/

/-- The matrix that a text is, if the text is one literal. -/
def literal? (text : String) : Option (DenseMatrix Float) :=
  match Token.lex text with
  | .error _ => none
  | .ok tokens =>
    match (Reading.items tokens .outside).result with
    | .ok ([.operand a], .outside) => some a
    | _ => none

/-- A text that is read as one matrix. -/
structure Literal where
  text : String
  value : DenseMatrix Float
  isLiteral : literal? text = some value

theorem Literal.reads (l : Literal) : Reads l.text.toList [.operand l.value] := by
  obtain ⟨text, a, h⟩ := l
  unfold literal? at h
  split at h
  · cases h
  · next tokens hlex =>
    split at h
    · next b hread =>
      cases h
      exact reads_of_lex hlex hread
    · cases h

theorem reads_tree (t : Tree Literal) :
    Reads (t.text Literal.text).toList (t.map Literal.value).items := by
  induction t with
  | leaf l => exact l.reads
  | unary u t ih =>
    have hword := (reads_word u).append ih.group (Token.boundary_of_first rfl _ _)
    simpa [Tree.text, Tree.map, Tree.items] using hword
  | binary b l r ihl ihr =>
    have hsign : ∃ c, b.sign.toList = [c] ∧ Token.isApart c = true := by
      cases b <;> exact ⟨_, rfl, rfl⟩
    obtain ⟨c, hc, hapart⟩ := hsign
    have hb : Reads [c] [.operator (.binary b)] := hc ▸ reads_sign b
    have hinner := ihl.append (hb.append ihr (Token.boundary_of_last hapart [] _))
      (Token.boundary_of_first hapart _ _)
    simpa [Tree.text, Tree.map, Tree.items, hc] using hinner.group

/-- A tree over literals, written with all its brackets, has the value of the tree as an expression:
the same matrix, or the first fault that is met on the way up from the leaves. -/
theorem result_evaluate_text (t : Tree Literal) :
    (evaluate (t.text Literal.text)).result = (t.map Literal.value).value := by
  rw [result_evaluate (reads_tree t)]
  exact Outline.result_evaluateItems (Outline.ofItems?_items _)

/-- The two products have shapes that do not fit, and the one on the left is reported. -/
theorem result_evaluate_text_misfit :
    let row : Literal := ⟨"[1 -2]", ⟨⟨1, 2⟩, #[1, -2]⟩, by decide +kernel⟩
    let column : Literal := ⟨"[ .5 ; 3. ]", ⟨⟨2, 1⟩, #[0.5, 3]⟩, by decide +kernel⟩
    let t : Tree Literal := .binary .plus
      (.binary .times (.leaf row) (.unary .transpose (.leaf column)))
      (.binary .times (.leaf column) (.leaf column))
    t.text Literal.text = "(([1 -2]*transpose([ .5 ; 3. ]))+([ .5 ; 3. ]*[ .5 ; 3. ]))" ∧
      (evaluate (t.text Literal.text)).result =
        .error (.calculation (.unfitOperands (.binary .times) ⟨1, 2⟩ ⟨1, 2⟩)) := by
  intro row column t
  have hvalue : (t.map Literal.value).value =
      .error (.calculation (.unfitOperands (.binary .times) ⟨1, 2⟩ ⟨1, 2⟩)) := by decide +kernel
  exact ⟨by decide +kernel, (result_evaluate_text t).trans hvalue⟩

end MatrixCalc
