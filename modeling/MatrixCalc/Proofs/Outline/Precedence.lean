import MatrixCalc.Proofs.Outline.Arrivals
import MatrixCalc.Proofs.Outline.Grouping

/-!
# Products before sums

An arriving operator reduces one waiting operator and does not look at the next one. So a `*` may be
left waiting below a `+` or `-`: the unary operator of its right factor is reduced in its place.
This module says of which expressions that happens. `Chain.PlainFactors` excludes a unary operator
on a later factor of a product that a `+` or `-` follows; the waiting operators keep every `*` on
top of its level throughout the expression exactly if that holds (`throughout_chain_iff`).

What carries the induction along a chain is whether a `*` is hidden below the last operator of the
level: only the arrival of a second operator above a `*` hides it, and nothing brings it back.

§1 waiting products · §2 factors · §3 arrivals · §4 terms and chains
-/

namespace MatrixCalc

universe u

/-! ## §1 Waiting products -/

namespace Operator

/-- The waiting operators of the innermost bracket level. -/
def level (w : List Operator) : List Operator := w.takeWhile (· != .opening)

/-- Wherever a `+` or `-` waits, no `*` waits below it on its bracket level. -/
def ProductsOnTop (w : List Operator) : Prop :=
  ∀ (b : Binary) (below : List Operator), b ≠ .times → .binary b :: below <:+ w →
    .binary .times ∉ level below

theorem productsOnTop_nil : ProductsOnTop [] := by
  intro b below _ h
  simp at h

theorem ProductsOnTop.suffix {w w' : List Operator} (h : ProductsOnTop w) (hw : w' <:+ w) :
    ProductsOnTop w' :=
  fun b below hb hbelow => h b below hb (hbelow.trans hw)

theorem productsOnTop_cons {op : Operator} {w : List Operator} :
    ProductsOnTop (op :: w) ↔
      (∀ b : Binary, op = .binary b → b ≠ .times → .binary .times ∉ level w) ∧
        ProductsOnTop w := by
  constructor
  · intro h
    refine ⟨?_, h.suffix (List.suffix_cons op w)⟩
    rintro b rfl hb
    exact h b w hb List.suffix_rfl
  · rintro ⟨hop, h⟩ b below hb hbelow
    rcases List.suffix_cons_iff.1 hbelow with heq | hsuffix
    · cases heq
      exact hop b rfl hb
    · exact h b below hb hsuffix

/-- No unary operator waits last. -/
def NoUnary (w : List Operator) : Prop := ∀ u, .unary u ∉ w.head?

/-- A `*` waits on the innermost level below the last operator. -/
def Hidden (w : List Operator) : Prop := .binary .times ∈ (level w).tail

/-- A `*` is the last operator that waits on the innermost level. -/
def Last (w : List Operator) : Prop := (level w).head? = some (.binary .times)

theorem level_cons {op : Operator} (hop : op ≠ .opening) (w : List Operator) :
    level (op :: w) = op :: level w := by
  simp [level, hop]

theorem level_opening (w : List Operator) : level (.opening :: w) = [] := by
  simp [level]

theorem mem_level_iff {w : List Operator} : .binary .times ∈ level w ↔ Last w ∨ Hidden w := by
  unfold Last Hidden
  cases level w with
  | nil => simp
  | cons op below => simp [eq_comm]

end Operator

/-! ## §2 Factors -/

variable {α : Type u}

def Chain.first : Chain α → Term α
  | .last t => t
  | .cons t _ _ => t

@[simp] theorem Chain.first_cons (t : Term α) (b : Binary) (rest : Chain α) :
    (Chain.cons t b rest).first = t := rfl

def Chain.OnlyTimes : Chain α → Prop
  | .last _ => True
  | .cons _ b rest => b = .times ∧ rest.OnlyTimes

mutual

/-- The group of a term, if it is one, has plain factors. -/
def Term.PlainFactors : Term α → Prop
  | .operand _ _ => True
  | .group _ inner => inner.PlainFactors

/-- In a product that is followed by `+` or `-` only the first factor has a unary operator, on the
level of the chain and on the levels of its groups. -/
def Chain.PlainFactors : Chain α → Prop
  | .last t => t.PlainFactors
  | .cons t b rest =>
    t.PlainFactors ∧ rest.PlainFactors ∧
      (b = .times → rest.first.unary?.isSome → rest.OnlyTimes)

end

/-! ## §3 Arrivals -/

namespace Operator

/-- A unary operator waits above anything but another unary operator. -/
theorem arrive_unary {w : List Operator} (h : NoUnary w) (u : Unary) :
    arrive (.unary u) w = some (.unary u :: w) := by
  refine arrive_waits (by simp) fun top htop => ?_
  cases top with
  | unary v => exact absurd htop (h v)
  | binary b => cases u <;> cases b <;> rfl
  | opening => rfl
  | closing => cases u <;> rfl

/-- Below an opening bracket nothing changes until its partner comes. -/
theorem dropGroup_arrive (op : Operator) (hopening : op ≠ .opening) (hclosing : op ≠ .closing)
    (w : List Operator) : ∃ w', op.arrive w = some w' ∧ dropGroup w' = dropGroup w := by
  cases w with
  | nil => exact ⟨[op], arrive_waits hclosing (by simp), dropGroup_cons hopening []⟩
  | cons top below =>
    cases hw : Stacks.waitsAbove op top with
    | true => exact ⟨_, arrive_waits hclosing (by simpa using hw), dropGroup_cons hopening _⟩
    | false =>
      have htop : top ≠ .opening := by
        rintro rfl
        simp [Stacks.waitsAbove] at hw
      exact ⟨_, arrive_pops hclosing hw, by rw [dropGroup_cons hopening, dropGroup_cons htop]⟩

/-- After a term a binary operator arrives: what is hidden below it was hidden before, or was the
last `*` and the unary operator of the term was reduced in its place. -/
theorem arrive_binary {w : List Operator} (h : NoUnary w) (u? : Option Unary) (b : Binary) :
    ∃ below, arrive (.binary b) (u?.toList.map .unary ++ w) = some (.binary b :: below) ∧
      below <:+ w ∧ (.binary .times ∈ level below ↔ Hidden w ∨ Last w ∧ u?.isSome) := by
  cases u? with
  | some u =>
    have hpops : Stacks.waitsAbove (.binary b) (.unary u) = false := by
      cases b <;> cases u <;> rfl
    refine ⟨w, arrive_pops (by simp) hpops, List.suffix_rfl, ?_⟩
    simp [mem_level_iff, or_comm]
  | none =>
    simp only [Option.toList, List.map_nil, List.nil_append, Option.isSome_none,
      Bool.false_eq_true, and_false, or_false]
    cases w with
    | nil => exact ⟨[], arrive_waits (by simp) (by simp), List.suffix_rfl, by simp [Hidden, level]⟩
    | cons top below =>
      cases hw : Stacks.waitsAbove (.binary b) top with
      | true =>
        refine ⟨_, arrive_waits (by simp) (by simpa using hw), List.suffix_rfl, ?_⟩
        by_cases htop : top = .opening
        · subst htop
          simp [Hidden, level_opening]
        · -- no binary operator waits above a `*`, so the last one is no `*`
          have htimes : top ≠ .binary .times := by
            rintro rfl
            cases b <;> simp [Stacks.waitsAbove, bindsTighter, rank] at hw
          simp [Hidden, level_cons htop, Ne.symm htimes]
      | false =>
        refine ⟨_, arrive_pops (by simp) hw, List.suffix_cons _ _, ?_⟩
        have htop : top ≠ .opening := by
          rintro rfl
          simp [Stacks.waitsAbove] at hw
        simp [Hidden, level_cons htop]

end Operator

/-! ## §4 Terms and chains -/

namespace Item

theorem waitingAfter_optionItems {w : List Operator} (h : Operator.NoUnary w)
    (u? : Option Unary) :
    waitingAfter (Unary.optionItems u? : List (Item α)) w =
      some (u?.toList.map .unary ++ w) := by
  cases u? with
  | none => rfl
  | some u =>
    show (Operator.arrive (.unary u) w).bind _ = _
    rw [Operator.arrive_unary h]
    rfl

theorem waitingAfter_cons_operator (op : Operator) (items : List (Item α)) (w : List Operator) :
    waitingAfter (.operator op :: items) w = (op.arrive w).bind (waitingAfter items) := rfl

mutual

/-- A matrix or a group leaves the operators that wait as they are. -/
theorem waitingAfter_atomItems : ∀ (T : Term α) (w : List Operator),
    waitingAfter T.atomItems w = some w
  | .operand _ a, w => rfl
  | .group _ inner, w => by
      obtain ⟨w', hw', hdrop⟩ := waitingAfter_chain inner (.opening :: w)
      have hclosing : Operator.arrive .closing w' = some w := hdrop
      rw [Term.atomItems, waitingAfter_cons_operator, Operator.arrive_opening, Option.bind_some,
        waitingAfter_append, hw', Option.bind_some, waitingAfter_cons_operator, hclosing]
      rfl

/-- A chain leaves what waits below the last opening bracket as it is. -/
theorem waitingAfter_chain : ∀ (c : Chain α) (w : List Operator),
    ∃ w', waitingAfter c.items w = some w' ∧ Operator.dropGroup w' = Operator.dropGroup w
  | .last T, w => waitingAfter_term T w
  | .cons T b rest, w => by
      obtain ⟨v, hv, hdv⟩ := waitingAfter_term T w
      obtain ⟨x, hx, hdx⟩ := Operator.dropGroup_arrive (.binary b) (by simp) (by simp) v
      obtain ⟨w', hw', hdw'⟩ := waitingAfter_chain rest x
      refine ⟨w', ?_, hdw'.trans (hdx.trans hdv)⟩
      rw [Chain.items, waitingAfter_append, hv, Option.bind_some, waitingAfter_cons_operator, hx]
      exact hw'

theorem waitingAfter_term : ∀ (T : Term α) (w : List Operator),
    ∃ w', waitingAfter T.items w = some w' ∧ Operator.dropGroup w' = Operator.dropGroup w
  | T, w => by
      rw [T.items_eq, waitingAfter_append]
      cases T.unary? with
      | none => exact ⟨w, waitingAfter_atomItems T w, rfl⟩
      | some u =>
        obtain ⟨v, hv, hdrop⟩ := Operator.dropGroup_arrive (.unary u) (by simp) (by simp) w
        refine ⟨v, ?_, hdrop⟩
        have hoption : waitingAfter (Unary.optionItems (some u) : List (Item α)) w = some v := by
          show (Operator.arrive (.unary u) w).bind _ = _
          rw [hv]
          rfl
        rw [hoption]
        exact waitingAfter_atomItems T v

end

open Operator (ProductsOnTop NoUnary Hidden Last)

theorem Throughout.last {P : List Operator → Prop} {items : List (Item α)} {w w' : List Operator}
    (h : Throughout P items w) (hw' : waitingAfter items w = some w') : P w' :=
  throughout_iff.1 h items (List.prefix_refl items) w' hw'

/-- The unary operator of a term hides no `*`: it is not a `+` or `-`. -/
theorem throughout_term_iff {T : Term α} {w : List Operator} (hfree : NoUnary w)
    (hw : ProductsOnTop w)
    (hatom : ∀ {v}, ProductsOnTop v → (Throughout ProductsOnTop T.atomItems v ↔ T.PlainFactors)) :
    Throughout ProductsOnTop T.items w ↔ T.PlainFactors := by
  rw [T.items_eq, throughout_append, waitingAfter_optionItems hfree]
  have hoption : ProductsOnTop (T.unary?.toList.map .unary ++ w) ∧
      Throughout ProductsOnTop (Unary.optionItems T.unary? : List (Item α)) w := by
    cases T.unary? with
    | none => exact ⟨hw, hw⟩
    | some u =>
      have hu : ProductsOnTop (.unary u :: w) := Operator.productsOnTop_cons.2 ⟨by simp, hw⟩
      refine ⟨hu, hw, ?_⟩
      intro next hnext
      have harrive : Operator.arrive (.unary u) w = some next := hnext
      rw [Operator.arrive_unary hfree] at harrive
      cases harrive
      exact hu
  constructor
  · rintro ⟨-, h⟩
    exact (hatom hoption.1).1 (h _ rfl)
  · intro h
    refine ⟨hoption.2, ?_⟩
    rintro v ⟨⟩
    exact (hatom hoption.1).2 h

/-- What a chain needs for its products to stay on top, from waiting operators `w` on. A `*` that is
hidden already, or is hidden by the unary operator of the first term, leaves room for more of them
only. -/
def KeepsProducts (c : Chain α) (w : List Operator) : Prop :=
  c.PlainFactors ∧ (Hidden w → c.OnlyTimes) ∧ (Last w → c.first.unary?.isSome → c.OnlyTimes)

/-- After a binary operator, that operator is the last one on its level. -/
theorem keepsProducts_binary {c : Chain α} {b : Binary} {below : List Operator} :
    KeepsProducts c (.binary b :: below) ↔
      c.PlainFactors ∧ (.binary .times ∈ Operator.level below → c.OnlyTimes) ∧
        (b = .times → c.first.unary?.isSome → c.OnlyTimes) := by
  have hlevel : Operator.level (.binary b :: below) = .binary b :: Operator.level below :=
    Operator.level_cons (by simp) below
  simp only [KeepsProducts, Hidden, Last, hlevel, List.tail_cons, List.head?_cons,
    Option.some.injEq, Operator.binary.injEq]

theorem throughout_cons_iff {T : Term α} {b : Binary} {rest : Chain α} {w : List Operator}
    (hfree : NoUnary w) (hw : ProductsOnTop w)
    (hterm : Throughout ProductsOnTop T.items w ↔ T.PlainFactors)
    (hrest : ∀ {v}, NoUnary v → ProductsOnTop v →
      (Throughout ProductsOnTop rest.items v ↔ KeepsProducts rest v)) :
    Throughout ProductsOnTop (Chain.cons T b rest).items w ↔
      KeepsProducts (Chain.cons T b rest) w := by
  obtain ⟨below, harrive, hsuffix, hmem⟩ := Operator.arrive_binary hfree T.unary? b
  have hafter : waitingAfter T.items w = some (T.unary?.toList.map .unary ++ w) := by
    rw [T.items_eq, waitingAfter_append, waitingAfter_optionItems hfree, Option.bind_some,
      waitingAfter_atomItems]
  -- the chain is its first term, the operator, and the rest from where that operator waits
  have hsplit : Throughout ProductsOnTop (Chain.cons T b rest).items w ↔
      T.PlainFactors ∧ Throughout ProductsOnTop rest.items (.binary b :: below) := by
    rw [Chain.items, throughout_append, hterm]
    constructor
    · rintro ⟨hT, h⟩
      exact ⟨hT, (h _ hafter).2 _ harrive⟩
    · rintro ⟨hT, h⟩
      refine ⟨hT, fun v hv => ?_⟩
      obtain rfl := Option.some.inj (hafter.symm.trans hv)
      refine ⟨(hterm.2 hT).last hafter, fun next hnext => ?_⟩
      obtain rfl := Option.some.inj (harrive.symm.trans hnext)
      exact h
  have hfree' : NoUnary (.binary b :: below) := by simp [NoUnary]
  rw [hsplit]
  constructor
  · rintro ⟨hT, h⟩
    have hnow : ProductsOnTop (.binary b :: below) := h.here
    obtain ⟨hR, hhidden, hlast⟩ := keepsProducts_binary.1 ((hrest hfree' hnow).1 h)
    have honly : .binary .times ∈ Operator.level below → (Chain.cons T b rest).OnlyTimes := by
      intro hm
      refine ⟨Decidable.byContradiction fun hb => ?_, hhidden hm⟩
      exact (Operator.productsOnTop_cons.1 hnow).1 b rfl hb hm
    exact ⟨⟨hT, hR, hlast⟩, fun hh => honly (hmem.2 (.inl hh)),
      fun hl hu => honly (hmem.2 (.inr ⟨hl, hu⟩))⟩
  · rintro ⟨⟨hT, hR, hlast⟩, hhidden, hfirst⟩
    have honly : .binary .times ∈ Operator.level below → (Chain.cons T b rest).OnlyTimes := by
      intro hm
      rcases hmem.1 hm with hh | ⟨hl, hu⟩
      · exact hhidden hh
      · exact hfirst hl hu
    have hnow : ProductsOnTop (.binary b :: below) := by
      refine Operator.productsOnTop_cons.2 ⟨?_, hw.suffix hsuffix⟩
      rintro c hc hne hm
      cases hc
      exact hne (honly hm).1
    exact ⟨hT, (hrest hfree' hnow).2
      (keepsProducts_binary.2 ⟨hR, fun hm => (honly hm).2, hlast⟩)⟩

mutual

theorem throughout_atomItems_iff : ∀ (T : Term α) {w : List Operator}, ProductsOnTop w →
    (Throughout ProductsOnTop T.atomItems w ↔ T.PlainFactors)
  | .operand _ a, w, hw => by
      refine ⟨fun _ => trivial, fun _ => ⟨hw, ?_⟩⟩
      rintro next ⟨⟩
      exact hw
  | .group _ inner, w, hw => by
      have hstart : ProductsOnTop (.opening :: w) :=
        Operator.productsOnTop_cons.2 ⟨by simp, hw⟩
      -- above the bracket a new level begins, where nothing is hidden
      have hinner := throughout_chain_iff inner (w := .opening :: w) (by simp [NoUnary]) hstart
      simp only [KeepsProducts, Hidden, Last, Operator.level_opening, List.tail_nil,
        List.not_mem_nil, List.head?_nil, reduceCtorEq, false_imp_iff, and_true] at hinner
      rw [Term.PlainFactors, ← hinner]
      constructor
      · rintro ⟨-, h⟩
        exact (throughout_append.1 (h _ (Operator.arrive_opening w))).1
      · intro h
        refine ⟨hw, fun next hnext => ?_⟩
        obtain rfl := Option.some.inj ((Operator.arrive_opening w).symm.trans hnext)
        refine throughout_append.2 ⟨h, fun v hv => ⟨h.last hv, ?_⟩⟩
        intro last hlast
        obtain ⟨v', hv', hdrop⟩ := waitingAfter_chain inner (.opening :: w)
        obtain rfl := Option.some.inj (hv'.symm.trans hv)
        obtain rfl := Option.some.inj (hdrop.symm.trans hlast)
        exact hw

/-- The waiting operators keep every `*` on top throughout a chain exactly if its factors are plain,
as far as what waits before it leaves room. -/
theorem throughout_chain_iff : ∀ (c : Chain α) {w : List Operator}, NoUnary w → ProductsOnTop w →
    (Throughout ProductsOnTop c.items w ↔ KeepsProducts c w)
  | .last T, w, hfree, hw => by
      have hterm := throughout_term_iff hfree hw (throughout_atomItems_iff T)
      rw [Chain.items, hterm]
      simp [KeepsProducts, Chain.PlainFactors, Chain.OnlyTimes]
  | .cons T b rest, w, hfree, hw =>
      throughout_cons_iff hfree hw (throughout_term_iff hfree hw (throughout_atomItems_iff T))
        (throughout_chain_iff rest)

end

/-- At the beginning of an expression nothing is hidden. -/
theorem throughout_expression_iff (c : Chain α) :
    Throughout ProductsOnTop c.items [] ↔ c.PlainFactors := by
  rw [throughout_chain_iff c (by simp [NoUnary]) Operator.productsOnTop_nil]
  simp [KeepsProducts, Hidden, Last, Operator.level]

end Item

end MatrixCalc
