import Mim.Proofs.Spells.Match

/-! # Expressions are read as they are written

An operand, and what each operator makes of what stands in front of it. The whole grammar
is then read as it is written, at any depth.
-/

namespace Mim

open Simulation (Anywhere)
open Grammar Token Mode Layout
open Nested (full)

variable {m : Mode} {P : Option Token → Prop} {l₀ : List Token} {s s' : Reading}

/-- An expression that an operator makes has the start of its left operand. -/
theorem SpelledIf.node {F : List Token → List Token → Prop} {k : Grade} {l : List Token} {form : Form}
    {place place' : Span} {q : Parser Form} (h : SpelledIf F m k l₀ l s form s' q)
    (same : m.Same place place') :
    SpelledIf F m k l₀ l s (Expr.mk form (s'.spanFrom place.start)) s'
      (do let form ← q; return ⟨form, (← get).spanFrom place'.start⟩) := by
  obtain ⟨cs, rest, recorded, told⟩ := h
  refine ⟨cs, rest, recorded, fun clean => ?_⟩
  obtain ⟨l₁, hl, w, hold, reads⟩ := told clean
  refine ⟨l₁, hl, w, hold, fun admits => ?_⟩
  intro u cs' us copies hu follow ends
  obtain ⟨form', u', run, sameForm, hu', ends', errors⟩ := reads admits copies hu follow ends
  refine ⟨⟨form', u'.spanFrom place'.start⟩, u', by rw [bind_of_ok run]; rfl, ?_, hu', ends', errors⟩
  exact Same.map₂ (f := Expr.mk) (fun _ _ => rfl) sameForm (same.spanFrom ends')

namespace Grammar

theorem startsOperand_of_startsDeclaration {t : Token} (h : t.startsDeclaration) :
    t.startsOperand := by
  cases t with
  | keyword word => cases word <;> first | rfl | cases h
  | _ => cases h

/-- An operand begins with a token that it can begin with. -/
theorem operandForm_head {g : Nested} {least : Prec} {form : Form}
    (run : operandForm g least s = .ok form s') : s.token?.any startsOperand := by
  unfold operandForm at run
  rw [peek_bind] at run
  cases hs : s.token? with
  | none =>
      rw [hs] at run
      cases run
  | some t =>
      rw [hs] at run
      have declares : (if t.startsDeclaration then block g else unexpected "expression" : Parser Form) s =
          .ok form s' → t.startsOperand := by
        intro run
        split at run
        · next h => exact startsOperand_of_startsDeclaration h
        · cases run
      cases t with
      | keyword word => cases word <;> first | rfl | exact declares run
      | symbol sign => cases sign <;> first | rfl | exact declares run
      | percent => cases run
      | doc line => exact declares run
      | _ => rfl

/-- Whether a token is an operator at least as strong as wanted. -/
def goesOnInfix (least : Prec) (t : Token) : Bool :=
  !t.startsDeclaration && (Operator.ofToken? t).any fun op => !decide (op.prec < least)

theorem extend?_advances {g : Nested} (hg : ∀ {σ : Simulation} {n : Nat}, σ.Nests n g g)
    {least : Prec} {lhs : Expr} : Advances (extend? g least lhs) :=
  fun _ _ _ run => (extend?_onward hg run).length

section Expressions

variable {g : Nested} (hg : g.Spelled m)
include hg

/-- The strength wanted of an operand decides no more than a note. -/
theorem operandForm_spells (least least' : Prec) :
    Spells m P .phrase [] (operandForm g least) (operandForm full least')
      fun form => form.layout.tokens := by
  refine SpellsIf.peek fun t _ => ?_
  split
  · exact SpellsIf.advance rfl (SpellsIf.pure rfl rfl)
  · exact SpellsIf.advance rfl (SpellsIf.pure rfl rfl)
  · exact annexOperand_spells _
  · exact literal_spells hg least least' _
  · exact bracketed_spells hg
  · exact implicitPi_spells hg
  · exact cnType_spells hg
  · exact fnType_spells hg
  · exact lm_spells hg
  · exact cn_spells hg
  · exact insert_spells hg
  · exact ret_spells hg
  · exact uniq_spells hg
  · exact array_spells hg
  · exact pack_spells hg
  · exact parenthesized_spells hg
  · exact match_spells hg
  · next reason _ =>
      intro s form s' hs run
      obtain ⟨i, rest, hrest, token⟩ := Reading.token?_eq_some.1 hs
      obtain ⟨-, rfl⟩ := pure_ok.1 (show (pure Form.error : Parser Form) s.advance = .ok form s' from run)
      refine ⟨[i], by rw [hrest, Reading.advance_eq hrest]; rfl, ?_, fun clean => ?_⟩
      · exact Reading.advance_eq hrest ▸ List.suffix_refl s.recorded
      refine absurd token ?_
      exact clean.tokens i (by simp [hrest]) reason
  · exact SpellsIf.fails fun _ _ _ _ run => nomatch run
  · exact SpellsIf.ite (block_spells hg) (SpellsIf.unexpected _)
  · exact SpellsIf.unexpected _

theorem operand_spells (least least' : Prec) :
    Spells m P .phrase [] (operand g least) (operand full least') fun e => e.layout.tokens :=
  SpellsIf.node (fun p => Expr.mk p.1 p.2) (operandForm_spells hg least least')
    (fun _ => rfl) (fun _ => rfl) (fun _ => rfl) (fun _ _ => rfl)

/-- What an operator makes is written after its left operand. -/
theorem infixForm_spells {lhs lhs' : Expr} (same : m.Same lhs lhs') (op : Operator) :
    Spells m (fun t => t.bind Operator.ofToken? = some op) .piece lhs.layout.tokens
      (infixForm g lhs op) (infixForm full lhs' op) fun form => form.layout.tokens := by
  have binary : ∀ (f : Expr → Expr → Form) (l : List Token) (right : Operator),
      (∀ a b, respan m.move (f a b) = f (respan m.move a) (respan m.move b)) →
      (∀ e, (f lhs e).layout.tokens = lhs.layout.tokens ++ l ++ e.layout.tokens) →
      ∀ {P}, Spells m P .piece (lhs.layout.tokens ++ l)
        (do return f lhs (← infixForm.right g right)) (do return f lhs' (← infixForm.right full right))
        fun form => form.layout.tokens := fun f l right hf hl =>
    (expr_spells hg right.rightMin).bind fun _ _ same' => SpellsIf.pure (Same.map₂ hf same same') (hl _)
  have signed : ∀ (t : Token) (f : Expr → Expr → Form) (right : Operator), t.isPlain →
      (∀ a b, respan m.move (f a b) = f (respan m.move a) (respan m.move b)) →
      (∀ e, (f lhs e).layout.tokens = lhs.layout.tokens ++ [t] ++ e.layout.tokens) →
      Spells m (· = some t) .piece lhs.layout.tokens
        (do advance; return f lhs (← infixForm.right g right))
        (do advance; return f lhs' (← infixForm.right full right))
        fun form => form.layout.tokens := fun t f right plain hf hl =>
    SpellsIf.advance plain (binary f [t] right hf hl)
  intro s form s' hs run
  obtain ⟨t, ht, hop⟩ := Option.bind_eq_some_iff.1 hs
  have sign := Operator.sign?_of_ofToken? hop
  cases op with
  | where_ =>
      obtain rfl := Option.some.inj (sign (by simp))
      have body : SpellsIf Follow m Anywhere .fragment (lhs.layout.tokens ++ [.keyword .where_])
          (do return Form.where_ lhs (← whereBody g)) (do return Form.where_ lhs' (← whereBody full))
          fun form => form.layout.tokens :=
        ((whereBody_spells hg).shift fun _ => rfl).made
          (fun _ _ same' => Same.map₂ (fun _ _ => Form.respan_where ..) same same')
          fun ds => by simp [Form.layout, whereTokens]
      have lead := Grade.leads_keyword (show Keyword.where_ ≠ .and_ by decide)
      have written : Spelled m .phrase lhs.layout.tokens form.layout.tokens s form s'
          (infixForm full lhs' .where_) :=
        .token lead ht (fun _ => rfl) (body s.advance form s' trivial run)
      exact written.weaken id Grade.IsLoose.loosen
  | arrow =>
      obtain rfl := Option.some.inj (sign (by simp))
      exact signed _ Form.arrow .arrow rfl (fun _ _ => rfl) (fun _ => by simp [Form.layout]) s form s'
        ht run
  | injection =>
      obtain rfl := Option.some.inj (sign (by simp))
      exact signed _ Form.injection .injection rfl (fun _ _ => rfl) (fun _ => by simp [Form.layout])
        s form s' ht run
  | application =>
      have written := binary (Form.application · · false) [] .application (fun _ _ => rfl)
        (fun _ => by simp [Form.layout]) (P := Anywhere)
      rw [List.append_nil] at written
      exact written s form s' trivial run
  | explicitApplication =>
      obtain rfl := Option.some.inj (sign (by simp))
      exact signed _ (Form.application · · true) .explicitApplication rfl (fun _ _ => rfl)
        (fun _ => by simp [Form.layout]) s form s' ht run
  | extraction =>
      obtain rfl := Option.some.inj (sign (by simp))
      exact signed _ Form.extraction .extraction rfl (fun _ _ => rfl)
        (fun _ => by simp [Form.layout]) s form s' ht run
  | union =>
      have length : ∀ {g : Nested}, (∀ {σ : Simulation} {n : Nat}, σ.Nests n g g) →
          Advances (after (.symbol .union) (g.expr Operator.union.rightMin)) := fun hg =>
        after_advances fun run =>
          (Simulation.InStep.onward (P := Anywhere) (hg.expr _) trivial run).rest.length_le
      have others := SpellsIf.many (m := m) Looks.follow (length hg.inStep)
        (length Nested.nests_full_self)
        (SpellsIf.after (Grade.leads_plain rfl) rfl rfl (expr_spells hg _))
      have written : SpellsIf Follow m Anywhere .piece lhs.layout.tokens (infixForm g lhs .union)
          (infixForm full lhs' .union) fun form => form.layout.tokens :=
        (others.shift fun _ => rfl).made (fun _ _ same' => Same.map (f := fun es => Form.union es)
          (fun _ => Form.respan_union ..) (same.cons same')) fun es => by
            simp [Form.layout, tokens_join, Expr.layouts_eq, intercalate_cons, List.flatMap_map]
      exact written s form s' trivial run

/-- What an operator makes of what is read so far is read again where no more is wanted. -/
theorem extend?_some_spells {least least' : Prec}
    (wanted : ∀ op : Operator, op.prec < least' → op.prec < least) {lhs lhs' e : Expr}
    (same : m.Same lhs lhs') (run : extend? g least lhs s = .ok (some e) s') :
    Spelled m .phrase lhs.layout.tokens e.layout.tokens s (some e) s' (extend? full least' lhs') := by
  have length := (extend?_onward hg.inStep run).length
  rcases extend?_ok.1 run with ⟨-, none, -⟩ | ⟨op, hop, strong, e, eq, first⟩
  · cases none
  obtain rfl := Option.some.inj eq
  have ahead : s.noted.token?.bind Operator.ofToken? = some op := by
    rw [Reading.token?, s.rest_noted]
    exact Reading.ofToken?_of_operator? hop
  obtain ⟨form, s₁, second, done⟩ := bind_ok.1 first
  obtain ⟨rfl, rfl⟩ := pure_ok.1 (show (pure (Expr.mk form (s₁.spanFrom lhs.span.start)) : Parser Expr) s₁ =
    .ok _ s' from done)
  have place : m.Same lhs.span lhs'.span := by
    change m.move lhs'.span = m.move lhs.span
    rw [← Expr.span_respan, ← Expr.span_respan, same]
  have node : Spelled m .piece lhs.layout.tokens form.layout.tokens s.noted
      (some (Expr.mk form (s₁.spanFrom lhs.span.start))) s₁ (some <$> infixExpr full lhs' op) :=
    ((infixForm_spells hg same op s.noted form s₁ ahead second).node place).map
      fun _ same => congrArg some same
  have whole := (SpelledIf.of_quiet s.rest_noted s.lastEnd_noted s.recorded_noted node).phrase (by omega)
  have quiet : Spelled m .phrase lhs.layout.tokens form.layout.tokens s
      (some (Expr.mk form (s₁.spanFrom lhs.span.start))) s₁
      (fun u => (some <$> infixExpr full lhs' op) u.noted) :=
    whole.quiet fun u => ⟨u.noted, rfl, u.rest_noted, u.lastEnd_noted, u.errors_noted⟩
  refine quiet.of_head fun {u} head _ => ?_
  have op_eq : u.operator? = some op := by rw [Reading.operator?, head]; exact hop
  unfold extend?
  rw [bind_of_ok operator?_run, op_eq]
  exact congrFun (if_neg (mt (wanted op) strong)) _

/-- What is read so far is written in front of what an operator makes of it. -/
theorem extend?_spells {least : Prec} {lhs lhs' : Expr} (same : m.Same lhs lhs') {r : Option Expr}
    (run : extend? g least lhs s = .ok r s') :
    Spelled m .piece lhs.layout.tokens (r.getD lhs).layout.tokens s r s'
      (extend? full least lhs') := by
  rcases extend?_ok.1 run with ⟨weak, rfl, rfl⟩ | ⟨op, -, -, e, rfl, -⟩
  · -- what may follow is no operator where none that is strong enough followed
    refine SpelledIf.nothing s.rest_noted s.lastEnd_noted s.recorded_noted fun {u} follow => ?_
    refine ⟨none, u.noted, extend?_ok.2 (.inl ⟨?_, rfl, rfl⟩), rfl, u.rest_noted, u.lastEnd_noted,
      u.errors_noted⟩
    have weaker : ∀ s : Reading, (∀ op ∈ s.operator?, op.prec < least) ↔
        (look s.tokens).1.any (goesOnInfix least) = false := by
      intro s
      rw [head_look, Reading.head?_tokens]
      unfold Reading.operator? goesOnInfix
      cases s.token? with
      | none => simp
      | some t => cases h : t.startsDeclaration <;> cases h' : Operator.ofToken? t <;> simp [h, h']
    rw [weaker] at weak ⊢
    refine follow.stops (c := fun seen => seen.1.any (goesOnInfix least)) rfl (fun t ht => ?_) weak
    rcases ht with ht | ht
    · unfold isShut at ht
      split at ht <;> first | rfl | cases ht
    · simp [goesOnInfix, ht]
  · exact (extend?_some_spells hg (fun _ => id) same run).weaken id Grade.IsLoose.loosen

theorem exprRule_spells (least : Prec) :
    Spells m P .phrase [] (Grammar.expr g least) (Grammar.expr full least)
      fun e => e.layout.tokens := by
  intro s e s' hs run
  obtain ⟨lhs, s₁, first, rest⟩ := bind_ok.1 run
  refine (operand_spells hg least least s lhs s₁ hs first).bind fun lhs' same => ?_
  exact Spelled.grow (fun _ => extend?_advances hg.inStep) (fun _ => extend?_advances Nested.nests_full_self)
    (fun same run => extend?_spells hg same run) same rest

end Expressions

/-- An expression begins with an operand. -/
theorem expr_head {g : Nested} {least : Prec} {e : Expr} (run : Grammar.expr g least s = .ok e s') :
    s.token?.any startsOperand := by
  obtain ⟨lhs, s₁, first, -⟩ := bind_ok.1 run
  obtain ⟨r, s₂, form, -⟩ := bind_ok.1 first
  exact operandForm_head (located_ok.1 form).1

end Grammar

namespace Nested

theorem spelled_upTo : ∀ n, (upTo n).Spelled m
  | 0 => {
      inStep := nests_self
      head run := nomatch run
      expr _ := SpellsIf.unexpected _
      tuple _ := SpellsIf.unexpected _ }
  | n + 1 => {
      inStep := nests_self
      head := expr_head
      expr least := by
        rw [full_expr]
        exact exprRule_spells (spelled_upTo n) least
      tuple bracket := by
        intro s b s' hs run
        refine (tuple_spells (spelled_upTo n) bracket s b s' hs run).of_head fun {u} head _ => ?_
        exact full_tuple (head.trans hs) }

end Nested

end Mim
