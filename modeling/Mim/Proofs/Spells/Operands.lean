import Mim.Proofs.Spells.Where

/-! # Operands are read as they are written -/

namespace Mim

open Simulation (Anywhere)
open Grammar Token Mode Layout
open Nested (full)

variable {m : Mode} {P : Option Token → Prop} {l₀ : List Token}

namespace Grammar

/-- A look at the parenthesis after an annex is worth no more than a note. -/
theorem annexOperand_spells (path : AnnexPath) :
    Spells m (· = some (.annex path)) .phrase [] (annexOperand path) (annexOperand path)
      fun form => form.layout.tokens := by
  have run : ∀ s : Reading, ∃ s', (do
      if ← sees (.symbol .leftParen) then note .annexArgumentOverSubtags (← span)
      return Form.annex path : Parser Form) s = .ok (.annex path) s' ∧ s'.rest = s.rest ∧
      s'.lastEnd = s.lastEnd ∧ s.recorded <:+ s'.recorded ∧
      s'.recorded.filter Diagnostic.isError = s.recorded.filter Diagnostic.isError := by
    intro s
    rw [sees_bind]
    split
    · exact ⟨s.note _ _, rfl, s.rest_note _ _, s.lastEnd_note _ _, s.recorded_note _ _,
        s.errors_note _ _⟩
    · exact ⟨s, rfl, rfl, rfl, List.suffix_refl _, rfl⟩
  refine SpellsIf.advance rfl fun s form s' _ first => ?_
  obtain ⟨s₁, again, rest, ends, recorded, -⟩ := run s
  rw [again] at first
  cases first
  refine SpelledIf.nothing rest ends recorded fun {u} _ => ?_
  obtain ⟨u₁, again', rest', ends', -, errors⟩ := run u
  exact ⟨_, u₁, again', rfl, rest', ends', errors⟩

section Operands

variable {g : Nested} (hg : g.Spelled m)
include hg

/-- A literal may have a type after it. -/
theorem literal_spells (least least' : Prec) (value : Literal) :
    Spells m (· = some (.literal value)) .phrase [] (literal g least value)
      (literal full least' value) fun form => form.layout.tokens := by
  refine SpellsIf.span fun place place' same => SpellsIf.advance rfl ?_
  refine SpellsIf.mayAccept rfl rfl ?_ (SpellsIf.pure rfl rfl)
  refine SpellsIf.expect rfl ?_
  have type_ : Spells m Anywhere .phrase [.literal value, .symbol .colon]
      (do return Form.ascribed value place (← anyExpr g))
      (do return .ascribed value place' (← anyExpr full)) fun form => form.layout.tokens :=
    (anyExpr_spells hg).bind fun _ _ same' => SpellsIf.pure
      (Same.map₂ (f := Form.ascribed value) (fun _ _ => rfl) same same') (by simp [Form.layout])
  simp only [if_true]
  exact (SpellsIf.mayNote (f := fun _ => _) type_).loosen

theorem block_spells : Spells m P .phrase [] (block g) (block full) fun form => form.layout.tokens := by
  have parts : ∀ g, block g = blockParts g >>= fun r => pure (.block r.1 r.2) := by
    intro g
    simp [block, blockParts]
  rw [parts, parts]
  exact (blockParts_spells hg).made (fun _ _ same => Same.map₂ (fun _ _ => Form.respan_block ..)
    (Same.prod_iff.1 same).1 (Same.prod_iff.1 same).2) fun r => by simp [Form.layout, blockPartsTokens]

/-- The codomain of a function type. -/
theorem codomain_spells :
    Spells m P .piece [] (after (.symbol .arrow) (g.expr .arrow))
      (after (.symbol .arrow) (full.expr .arrow))
      fun r => r.elim [] fun e => .symbol .arrow :: e.layout.tokens :=
  SpellsIf.after (Grade.leads_plain rfl) rfl rfl (expr_spells hg .arrow)

theorem bracketed_spells :
    Spells m (· = some (.symbol .leftBracket)) .phrase [] (bracketed g) (bracketed full)
      fun form => form.layout.tokens := by
  refine (tuple_spells hg .square).bind fun tuple tuple' same => ?_
  refine (codomain_spells hg).append fun r r' sames => ?_
  cases r with
  | some codomain =>
      obtain ⟨codomain', rfl, same'⟩ := sames.of_some
      exact SpellsIf.pure (Same.map₂ (f := fun tuple codomain => Form.pi .arrow tuple (some codomain))
        (fun _ _ => rfl) same same') (by simp [Form.layout, Expr.layoutAfter, PiKind.layout])
  | none =>
      obtain rfl := sames.of_none
      refine (SpellsIf.after (Grade.leads_plain rfl) rfl rfl name_spells).append fun label _ same' => ?_
      refine SpellsIf.pure (Same.map₂ (f := Form.sigma) (fun _ _ => rfl) same same') ?_
      cases label <;> simp [Form.layout]

theorem implicitPi_spells :
    Spells m (· = some (.symbol .leftBrace)) .phrase [] (implicitPi g) (implicitPi full)
      fun form => form.layout.tokens := by
  refine (tuple_spells hg .curly).bind fun _ _ same => SpellsIf.expect rfl ?_
  refine (expr_spells hg .arrow).bind fun _ _ same' => ?_
  exact SpellsIf.pure (Same.map₂ (f := fun tuple codomain => Form.pi .arrow tuple (some codomain))
    (fun _ _ => rfl) same same') (by simp [Form.layout, Expr.layoutAfter, PiKind.layout])

theorem cnType_spells :
    Spells m P .phrase [] (cnType g) (cnType full) fun form => form.layout.tokens :=
  SpellsIf.expect rfl <| (piDomain_spells hg).bind fun _ _ same =>
    SpellsIf.pure (same.map (f := fun domain => Form.pi .cn domain none) fun _ => rfl)
      (by simp [Form.layout, Expr.layoutAfter, PiKind.layout])

theorem fnType_spells :
    Spells m P .phrase [] (fnType g) (fnType full) fun form => form.layout.tokens := by
  refine SpellsIf.expect rfl ((piDomain_spells hg).bind fun _ _ same => ?_)
  refine (codomain_spells hg).append fun _ _ same' => ?_
  exact SpellsIf.pure (Same.map₂ (fun _ _ => Form.respan_pi ..) same same')
    (by simp [Form.layout, Expr.tokens_layoutAfter, PiKind.layout])

omit hg in
theorem domain?_run (g : Nested) (s : Reading) : domain? g s =
    (if s.token?.any startsDomain then some <$> domain g else pure none) s := by
  unfold domain?
  rw [peek_bind]
  cases s.token? with
  | none => rfl
  | some t => cases h : t.startsDomain <;> simp [h]

omit hg in
theorem domain?_advances (hg : ∀ {σ : Simulation} {n : Nat}, σ.Nests n g g) : Advances (domain? g) :=
  optional_advances (domain?_run g) fun run =>
    (Simulation.InStep.onward (domain_inStep (P := Anywhere) hg) trivial run).length

theorem lm_spells : Spells m P .phrase [] (lm g) (lm full) fun form => form.layout.tokens := by
  have more : Spells m Anywhere .piece [] (domain? g) (domain? full)
      fun r => r.elim [] fun b => b.layout.tokens :=
    SpellsIf.optional startsDomain_stops (domain?_run g) (domain?_run full) (domain_spells hg)
  refine SpellsIf.expect rfl ?_
  refine ((domain_spells hg).many1 (domain?_advances hg.inStep)
    (domain?_advances Nested.nests_full_self) more).bind fun domains _ same => ?_
  refine (afterExpr_spells hg rfl rfl rfl).append fun _ _ same' => SpellsIf.expect rfl ?_
  refine (anyExpr_spells hg).bind fun _ _ same'' => ?_
  refine SpellsIf.pure (Same.map₃ (f := Form.lambda .lm) (fun _ _ _ => Form.respan_lambda ..)
    same same' same'') ?_
  cases domains <;> simp [Form.layout, Expr.tokens_layoutAfter, Binder.tokens_layoutEach,
    Binder.layoutEach, LambdaKind.keyword]

/-- The tokens that a pattern begins with. -/
def startsPattern : Token → Bool
  | .symbol .leftParen | .ident _ => true
  | _ => false

omit hg in
theorem pattern?_run (g : Nested) (s : Reading) : pattern? g s =
    (if s.token?.any startsPattern then some <$> pattern g else pure none) s := by
  unfold pattern?
  rw [peek_bind]
  cases s.token? with
  | none => rfl
  | some t =>
      cases t with
      | symbol sign => cases sign <;> rfl
      | _ => rfl

omit hg in
theorem pattern?_advances (hg : ∀ {σ : Simulation} {n : Nat}, σ.Nests n g g) :
    Advances (pattern? g) :=
  optional_advances (pattern?_run g) fun run =>
    (Simulation.InStep.onward (pattern_inStep (P := Anywhere) hg) trivial run).length

theorem cn_spells : Spells m P .phrase [] (cn g) (cn full) fun form => form.layout.tokens := by
  have stops : ∀ t : Token, t.isShut ∨ t.startsDeclaration → startsPattern t = false := by
    intro t ht
    have no := startsDomain_stops t ht
    unfold startsPattern
    split <;> first | rfl | cases no
  have more : Spells m Anywhere .piece [] (pattern? g) (pattern? full)
      fun r => r.elim [] fun b => b.layout.tokens :=
    SpellsIf.optional stops (pattern?_run g) (pattern?_run full) (pattern_spells hg)
  refine SpellsIf.expect rfl ?_
  refine ((pattern_spells hg).many1 (pattern?_advances hg.inStep)
    (pattern?_advances Nested.nests_full_self) more).bind fun domains _ same => SpellsIf.expect rfl ?_
  refine (anyExpr_spells hg).bind fun _ _ same' => ?_
  refine SpellsIf.pure (Same.map₂ (f := fun domains body => Form.lambda .cn domains none body)
    (fun _ _ => Form.respan_lambda ..) same same') ?_
  cases domains <;> simp [Form.layout, Expr.tokens_layoutAfter, Binder.tokens_layoutEach,
    Binder.layoutEach, LambdaKind.keyword]

theorem insert_spells : Spells m P .phrase [] (insert g) (insert full) fun form => form.layout.tokens := by
  refine SpellsIf.expect rfl (SpellsIf.loosen (SpellsIf.expect_with Grade.leads_paren ?_))
  refine (anyExpr_spells hg).loosen.append fun _ _ same =>
    SpellsIf.expect_with Grade.leads_comma_closed ?_
  refine (anyExpr_spells hg).loosen.append fun _ _ same' =>
    SpellsIf.expect_with Grade.leads_comma_closed ?_
  refine (anyExpr_spells hg).loosen.append fun _ _ same'' =>
    SpellsIf.expect_with (Grade.leads_shut rfl : Grade.Leads _ .piece .closed) ?_
  exact SpellsIf.pure (Same.map₃ (f := Form.insert) (fun _ _ _ => rfl) same same' same'')
    (by simp [Form.layout, tokens_commas])

theorem ret_spells : Spells m P .phrase [] (ret g) (ret full) fun form => form.layout.tokens := by
  refine SpellsIf.expect rfl ((binder_spells hg true).bind fun _ _ same₁ => SpellsIf.expect rfl ?_)
  refine (anyExpr_spells hg).bind fun _ _ same₂ => SpellsIf.expect rfl ?_
  refine (anyExpr_spells hg).bind fun _ _ same₃ => SpellsIf.expect rfl ?_
  refine (anyExpr_spells hg).bind fun _ _ same₄ => ?_
  refine SpellsIf.pure ((Same.prod_iff.2 ⟨same₁, Same.prod_iff.2 ⟨same₂, Same.prod_iff.2
    ⟨same₃, same₄⟩⟩⟩).map (f := fun r => Form.ret r.1 r.2.1 r.2.2.1 r.2.2.2) fun _ => rfl) ?_
  simp [Form.layout]

theorem uniq_spells : Spells m P .phrase [] (uniq g) (uniq full) fun form => form.layout.tokens := by
  refine SpellsIf.expect rfl ((anyExpr_spells hg).bind fun _ _ same => SpellsIf.expect rfl ?_)
  exact SpellsIf.pure (same.map (f := Form.uniq) fun _ => rfl) (by simp [Form.layout])

theorem pack_spells : Spells m P .phrase [] (pack g) (pack full) fun form => form.layout.tokens := by
  refine SpellsIf.expect rfl ((anyExpr_spells hg).bind fun _ _ same => SpellsIf.expect rfl ?_)
  refine (anyExpr_spells hg).bind fun _ _ same' => SpellsIf.expect rfl ?_
  exact SpellsIf.pure (Same.map₂ (f := Form.pack) (fun _ _ => rfl) same same') (by simp [Form.layout])

omit hg in
theorem anyExpr_length (hg : ∀ {σ : Simulation} {n : Nat}, σ.Nests n g g) ⦃s : Reading⦄ ⦃e : Expr⦄
    ⦃s' : Reading⦄ (run : anyExpr g s = .ok e s') : s'.rest.length ≤ s.rest.length :=
  (Simulation.InStep.onward (P := Anywhere) (hg.expr .bottom) trivial run).rest.length_le

omit hg in
/-- A list may go on after its first element. -/
theorem after_commaList {α β : Type} {close : Token} {element : Parser α} {a : α}
    {f : List α → Parser β} :
    (after (.symbol .comma) (commaList close element) >>= fun others =>
      expect close >>= fun _ => f (a :: others.getD [])) = listedTail close element a >>= f := by
  unfold after listedTail listed
  rw [bind_assoc, bind_assoc]
  congr 1
  funext b
  cases b <;> simp

theorem array_spells : Spells m P .phrase [] (array g) (array full) fun form => form.layout.tokens := by
  have sizes : ∀ g, array g = expect (.symbol .leftArray) >>= fun _ =>
      (anyExpr g >>= listedTail (.symbol .semicolon) (anyExpr g)) >>= fun sizes =>
        anyExpr g >>= fun element => expect (.symbol .rightArray) >>= fun _ =>
          pure (.array sizes element) := by
    intro g
    simp only [array, bind_assoc, ← after_commaList]
  rw [sizes, sizes]
  have list := SpellsIf.listed1 (m := m) (P := Anywhere) (show isShut (.symbol .semicolon) from rfl)
    (anyExpr_length hg.inStep) (anyExpr_length Nested.nests_full_self) (fun s e s' run => ?_)
    ((anyExpr_spells hg).follow FollowElement.follow)
  · refine SpellsIf.expect rfl (list.whole.loosen.append fun _ _ same => ?_)
    refine (anyExpr_spells hg).bind fun _ _ same' => SpellsIf.expect rfl ?_
    exact SpellsIf.pure (Same.map₂ (fun _ _ => Form.respan_array ..) same same')
      (by simp [Form.layout, tokens_commas, Expr.layouts_eq, Function.comp_def])
  · intro shut
    have head := hg.head run
    rw [shut] at head
    cases head

theorem parenthesized_spells : Spells m P .phrase [] (parenthesized g) (parenthesized full)
    fun form => form.layout.tokens := by
  have list := SpellsIf.listed (m := m) (P := Anywhere) (show isShut (.symbol .rightParen) from rfl)
    (anyExpr_length hg.inStep) (anyExpr_length Nested.nests_full_self)
    ((anyExpr_spells hg).follow FollowElement.follow)
  have parts : ∀ g, parenthesized g = expect (.symbol .leftParen) >>= fun _ =>
      listed (.symbol .rightParen) (anyExpr g) >>= fun elements => pure (.tuple elements) := by
    intro g
    simp [parenthesized, listed]
  rw [parts, parts]
  refine SpellsIf.expect_with Grade.leads_paren ((list.shift fun _ => rfl).made ?_ fun elements => ?_)
  · exact fun _ _ same => same.map fun _ => Form.respan_tuple ..
  · simp [Form.layout, tokens_commas, Expr.layouts_eq, Function.comp_def]

end Operands

end Grammar

end Mim
