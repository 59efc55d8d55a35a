import Mim.Proofs.Grouping

/-! # The grammar groups by precedence

An expression of a least strength is followed by no operator that strong. So what has
been read so far is always a left operand for the operator that comes next, and its
right operand, read with a strength of its own, is a right operand.
-/

namespace Mim

open Simulation Grammar

/-- An operator that comes next is weaker than the strength wanted. -/
def Reading.Below (least : Prec) (s : Reading) : Prop := ∀ op ∈ s.operator?, op.prec < least

/-- The form of an operand: it may stand to the left of the operator that comes next. -/
structure Form.IsOperand (form : Form) (s : Reading) : Prop where
  grouped : Grouped form
  operator : form.operator? = none
  left : ∀ op ∈ s.operator?, form.IsLeftOf op

theorem Form.groups_of_operator?_eq_none {form : Form} (h : form.operator? = none) :
    form.Groups := by
  cases form <;> simp [Form.operator?, Form.Groups] at h ⊢

namespace Form.IsOperand

variable {form : Form} {s : Reading}

/-- A form that nothing can be added to on its right. -/
theorem closed (h : Grouped form) (ho : form.operator? = none) (hl : ∀ op, form.IsLeftOf op) :
    form.IsOperand s := ⟨h, ho, fun op _ => hl op⟩

/-- A form that takes every operator there is. -/
theorem open_ (h : Grouped form) (ho : form.operator? = none) (hs : s.Below .bottom) :
    form.IsOperand s := by
  refine ⟨h, ho, fun op hop => absurd (hs op hop) ?_⟩
  cases op <;> decide

/-- A function type with a codomain, which takes every operator but a `where`. -/
theorem pi {kind : PiKind} {domain : Binder} {codomain : Option Expr}
    (h : Grouped (Form.pi kind domain codomain)) (hs : codomain.isSome → s.Below .arrow) :
    (Form.pi kind domain codomain).IsOperand s := by
  refine ⟨h, rfl, fun op hop some => ?_⟩
  have weak := hs some op hop
  cases op with
  | where_ => rfl
  | arrow | injection | application | explicitApplication | union | extraction =>
      exact absurd weak (by decide)

end Form.IsOperand

/-- How to read what is nested so that it groups. -/
structure Nested.Groups (g : Nested) : Prop where
  expr (least : Prec) :
    Ensures (g.expr least) fun e s => Grouped e ∧ e.form.Binds least ∧ s.Below least
  tuple (bracket : Bracket) : Yields (g.tuple bracket)
  inStep {σ : Simulation} {m : Nat} : σ.Nests m g g

namespace Grammar

variable {g : Nested}

section Binders

variable (hg : g.Groups)
include hg

theorem expr_yields (least : Prec) : Yields (g.expr least) :=
  (hg.expr least).mono fun _ _ h => h.1

theorem typed_yields : Yields (typed g) := by
  refine Ensures.bind (.place (.skip fun _ => .skip fun _ => ?_)) fun a ha => .pure fun _ => ?_
  · exact (expr_yields hg .bottom).last fun e _ he => (grouped_pair _ e).2 ⟨trivial, he⟩
  · exact ha.1.2

theorem group_yields : Yields (group g) := by
  refine Ensures.bind (.place (.skip fun _ => .skip fun _ => ?_)) fun a ha => .pure fun _ => ?_
  · exact (expr_yields hg .bottom).last fun e _ he =>
      (grouped_pair _ e).2 ⟨fun _ _ => trivial, he⟩
  · exact ha.1.2

theorem pattern_yields : Yields (pattern g) := by
  refine .skip fun t => ?_
  split
  · exact hg.tuple .round
  · refine .skip fun _ => .ite (typed_yields hg) (.skip fun _ => .pure fun _ => allGroup_nil)
  · exact .unexpected

theorem battern_yields (least : Prec) : Yields (battern g least) := by
  have type_ : Yields (do return Binder.type (← g.expr least)) :=
    (expr_yields hg least).last fun _ _ he => he
  refine .skip fun t => ?_
  split
  · exact hg.tuple .square
  · exact .skip fun _ => .ite (typed_yields hg) type_
  · exact type_

theorem element_yields (bracket : Bracket) : Yields (element g bracket) := by
  refine .skip fun _ => .ite (.ite (group_yields hg) (.skip fun _ => .skip fun _ => ?_)) ?_
  · exact group_yields hg
  · cases bracket with
    | round => exact pattern_yields hg
    | square | curly => exact battern_yields hg .bottom

theorem tuple_yields (bracket : Bracket) : Yields (tuple g bracket) := by
  refine Ensures.bind (.place (.skip fun _ => ?_)) fun a ha => .pure fun _ => ?_
  · exact .bind (.commaList (element_yields hg bracket)) fun _ h => .skip fun _ => .pure fun _ => h
  · simpa using ha.1

theorem binder_yields (annotated : Bool) : Yields (binder g annotated) := by
  have name : Yields (do return Binder.name (← identifier)) :=
    .skip fun _ => .pure fun _ => allGroup_nil
  refine .skip fun t => ?_
  split
  · exact pattern_yields hg
  · exact battern_yields hg .pi
  · refine .skip fun _ => .skip fun _ => .ite (pattern_yields hg) (.skip fun _ => ?_)
    exact .ite (.skip fun _ => name) name
  · exact .ite ((expr_yields hg .pi).last fun _ _ he => he) .unexpected
  · exact .unexpected

theorem domain_yields : Yields (domain g) := by
  have name : Yields (do return Binder.name (← identifier)) :=
    .skip fun _ => .pure fun _ => allGroup_nil
  refine .skip fun t => ?_
  split
  · exact pattern_yields hg
  · exact battern_yields hg .pi
  · exact hg.tuple .curly
  · exact .skip fun _ => .ite (.skip fun _ => .skip fun _ => name) name
  · exact .ite ((expr_yields hg .union).last fun _ _ he => he) .unexpected
  · exact .unexpected

theorem domain?_yields : Yields (domain? g) := by
  refine .skip fun t => ?_
  split
  · exact .ite ((domain_yields hg).map fun a _ h => (grouped_some a).2 h) (.pure fun _ => grouped_none)
  · exact .pure fun _ => grouped_none

theorem piDomain_yields : Yields (piDomain g) :=
  .skip fun _ => .ite (hg.tuple .curly) (battern_yields hg .pi)

end Binders

section Declarations

variable (hg : g.Groups)
include hg

theorem type_yields {marker : Token} : Yields (after marker (anyExpr g)) :=
  (expr_yields hg .bottom).after

theorem axm_yields : Yields (axm g) := by
  refine .skip fun _ => .skip fun _ => .skip fun _ => .bind (expr_yields hg .bottom) fun ty hty => ?_
  refine .skip fun options => ?_
  split
  · exact .pure fun _ => hty
  · exact .pure fun _ => hty

theorem cfun_yields : Yields (cfun g) := by
  have type_ : ∀ domain : Binder, Grouped domain →
      Yields (do expect (.symbol .colon); return DeclForm.cfun domain (← anyExpr g)) :=
    fun domain h => .skip fun _ => (expr_yields hg .bottom).last fun ty _ hty => by
      simpa using ⟨h, hty⟩
  refine .skip fun _ => .skip fun _ => .ite ?_ ?_
  · exact .bind (battern_yields hg .pi) fun domain h => type_ domain h
  · have domain : Yields (g.expr .pi >>= fun e => do
        let domain ← pure (Binder.type e)
        expect (.symbol .colon)
        return DeclForm.cfun domain (← anyExpr g)) :=
      .bind (expr_yields hg .pi) fun e h => type_ (.type e) h
    exact .skip fun _ => .skip fun _ => .ite (.skip fun _ => .skip fun _ => domain) domain

theorem ccon_yields : Yields (ccon g) :=
  .skip fun _ => (battern_yields hg .pi).last fun _ _ h => h

theorem let_yields : Yields (let_ g) := by
  refine .skip fun _ => .skip fun _ => .ite ?_ ?_
  · exact .skip fun _ => .skip fun _ => (expr_yields hg .bottom).last fun _ _ h => h
  · refine .bind (binder_yields hg true) fun b hb => .skip fun _ => ?_
    exact (expr_yields hg .bottom).last fun _ _ h => by simpa using ⟨hb, h⟩

theorem param_yields : Yields (param g) := by
  refine Ensures.bind (.place (.bind (domain_yields hg) fun domain h => .skip fun _ => ?_))
    fun a ha => .pure fun _ => (grouped_param ..).2 ha.1
  have filter : Yields (do advance; return (domain, some (← g.expr .union))) :=
    .skip fun _ => (expr_yields hg .union).last fun e _ he => ⟨h, (grouped_some e).2 he⟩
  refine .ite ?_ (.pure fun _ => ⟨h, grouped_none⟩)
  split
  · exact .skip fun _ => .skip fun _ => filter
  · exact filter

theorem param?_yields : Yields (param? g) := by
  refine .skip fun t => ?_
  split
  · exact .ite ((param_yields hg).map fun a _ h => (grouped_some a).2 h) (.pure fun _ => grouped_none)
  · exact .pure fun _ => grouped_none

theorem lam_yields : Yields (lam g) := by
  refine Ensures.bind (.place (.skip fun t => ?_)) fun a ha => .pure fun _ => (grouped_lam ..).2 ?_
  · split
    · exact .unexpected
    · refine .skip fun _ => .skip fun _ => .skip fun _ => ?_
      refine .bind (.many (param?_yields hg)) fun params h => ?_
      refine .bind (type_yields hg) fun codomain h' => ?_
      exact (type_yields hg).last fun body _ h'' => ⟨trivial, trivial, trivial, h, h', h''⟩
  · exact ha.1.2.2.2

theorem recBinding_yields : Yields (recBinding g) := by
  refine Ensures.bind (.place (.skip fun _ => ?_)) fun a ha =>
    .pure fun _ => (grouped_recBinding ..).2 ha.1.2
  refine .bind (type_yields hg) fun ty h => .skip fun _ => ?_
  exact (expr_yields hg .bottom).last fun value _ h' => ⟨trivial, h, h'⟩

theorem nextRecBinding?_yields : Yields (nextRecBinding? g) :=
  .skip fun _ => .ite (.pure fun _ => grouped_none) (recBinding_yields hg).after

theorem rec_yields : Yields (rec_ g) := by
  refine .skip fun _ => .bind (.many1 (recBinding_yields hg) (nextRecBinding?_yields hg))
    fun bindings h => ?_
  exact (lam_yields hg).after.last fun l _ h' => by simpa using ⟨h, h'⟩

theorem rule_yields : Yields (rule g) := by
  have body : ∀ kind : RuleKind, Yields (do
      let binder ← binder g false
      expect (.symbol .colon)
      let lhs ← anyExpr g
      let guard ← after (.keyword .when_) (anyExpr g)
      expect (.symbol .fatArrow)
      return DeclForm.rule kind binder lhs guard (← anyExpr g)) := by
    intro kind
    refine .bind (binder_yields hg false) fun b hb => .skip fun _ => ?_
    refine .bind (expr_yields hg .bottom) fun lhs hl => .bind (type_yields hg) fun guard h => ?_
    refine .skip fun _ => (expr_yields hg .bottom).last fun rhs _ hr => ?_
    simpa using ⟨hb, hl, h, hr⟩
  refine .skip fun _ => .ite ?_ ?_
  · exact .skip fun _ => body _
  · exact .skip fun _ => .skip fun _ => body _

theorem declForm_yields : Yields (declForm g) := by
  have lam : Yields (DeclForm.lam <$> lam g) := (lam_yields hg).map fun _ _ h => h
  refine .skip fun t => ?_
  split
  · exact axm_yields hg
  · exact cfun_yields hg
  · exact ccon_yields hg
  · exact let_yields hg
  · exact rec_yields hg
  · exact lam
  · exact lam
  · exact lam
  · exact rule_yields hg
  · exact rule_yields hg
  · exact .unexpected

theorem declaration_yields : Yields (declaration g) :=
  .skip fun _ => .bind (.place (declForm_yields hg)) fun _ h => .pure fun _ => h.1

theorem whereBody_yields : Yields (whereBody g) := by
  refine .bind (.many (.skip fun _ => .ite (.pure fun _ => ?_) (.skip fun t => ?_)))
    fun parts h => .skip fun _ => .pure fun _ => ?_
  · exact (grouped_some _).2 grouped_none
  · split
    · exact .pure fun _ => grouped_none
    · exact .pure fun _ => grouped_none
    · refine (Ensures.declarationOrError (declaration_yields hg)).last fun d _ hd => ?_
      exact (grouped_some _).2 ((grouped_some d).2 hd)
  · intro d hd
    obtain ⟨part, mem, eq⟩ := List.mem_filterMap.1 hd
    exact h part mem d eq

end Declarations

section Operands

variable (hg : g.Groups)
include hg

/-- The last expression of a form, which is then open on its right. -/
theorem open_last {α : Type} {least : Prec} {f : Expr → α} {T : α → Reading → Prop}
    (h : ∀ e s, Grouped e → s.Below least → T (f e) s) :
    Ensures (g.expr least >>= fun e => pure (f e)) T :=
  (hg.expr least).last fun e s he => h e s he.1 he.2.2

theorem literal_operand (least : Prec) (value : Literal) :
    Ensures (literal g least value) Form.IsOperand := by
  refine .skip fun place => .skip fun _ => .skip fun _ => ?_
  have ty : Ensures (do return Form.ascribed value place (← anyExpr g)) Form.IsOperand :=
    open_last hg fun _ _ h hs => .open_ h rfl hs
  exact .ite (.ite (.skip fun _ => ty) ty) (.pure fun _ => .closed allGroup_nil rfl fun _ _ h => nomatch h)

omit hg in
theorem annexOperand_operand (path : AnnexPath) :
    Ensures (annexOperand path) Form.IsOperand := by
  have annex : Ensures (pure (Form.annex path)) Form.IsOperand :=
    .pure fun _ => .closed allGroup_nil rfl fun _ _ h => nomatch h
  exact .skip fun _ => .skip fun _ => .ite (.skip fun _ => .skip fun _ => annex) annex

theorem blockDeclaration?_yields : Yields (blockDeclaration? g) := by
  refine .skip fun t => ?_
  split
  · refine .ite (.bind (declaration_yields hg) fun d h => .skip fun _ => .pure fun _ => ?_)
      (.pure fun _ => grouped_none)
    exact (grouped_some d).2 h
  · exact .pure fun _ => grouped_none

theorem block_operand : Ensures (block g) Form.IsOperand := by
  refine .bind (.many (blockDeclaration?_yields hg)) fun ds h => open_last hg fun _ _ h' hs => ?_
  exact .open_ (by simpa using ⟨h, h'⟩) rfl hs

theorem bracketed_operand : Ensures (bracketed g) Form.IsOperand := by
  refine .bind (tuple_yields hg .square) fun b hb => ?_
  intro s form s' run
  obtain ⟨codomain, s₁, first, rest⟩ := bind_ok.1 run
  have h := (hg.expr .arrow).after s codomain s₁ first
  cases codomain with
  | some e =>
      obtain ⟨rfl, rfl⟩ := pure_ok.1 rest
      obtain ⟨he, -, hs⟩ := h e rfl
      exact .pi (by simpa using ⟨hb, he⟩) fun _ => hs
  | none =>
      refine (Ensures.skip fun label => .pure fun s => ?_) _ _ _ rest
      exact .closed hb rfl fun _ _ h => nomatch h

theorem implicitPi_operand : Ensures (implicitPi g) Form.IsOperand := by
  refine .bind (tuple_yields hg .curly) fun b hb => .skip fun _ => open_last hg fun e s he hs => ?_
  exact .pi (by simpa using ⟨hb, he⟩) fun _ => hs

theorem cnType_operand : Ensures (cnType g) Form.IsOperand := by
  refine .skip fun _ => (piDomain_yields hg).last fun b s hb => .pi ?_ fun h => nomatch h
  simpa using hb

theorem fnType_operand : Ensures (fnType g) Form.IsOperand := by
  refine .skip fun _ => .bind (piDomain_yields hg) fun b hb => ?_
  refine (hg.expr .arrow).after.last fun codomain s h => .pi ?_ fun hc => ?_
  · simpa using ⟨hb, fun e he => (h e he).1⟩
  · obtain ⟨e, rfl⟩ := Option.isSome_iff_exists.1 hc
    exact (h e rfl).2.2

theorem lm_operand : Ensures (lm g) Form.IsOperand := by
  refine .skip fun _ => .bind (.many1 (domain_yields hg) (domain?_yields hg)) fun ds h => ?_
  refine .bind (type_yields hg) fun codomain h' => .skip fun _ => open_last hg fun e s he hs => ?_
  exact .open_ (by simpa using ⟨h, h', he⟩) rfl hs

theorem pattern?_yields : Yields (pattern? g) := by
  have some_ : Yields (some <$> pattern g) :=
    (pattern_yields hg).map fun a _ h => (grouped_some a).2 h
  refine .skip fun t => ?_
  split
  · exact some_
  · exact some_
  · exact .pure fun _ => grouped_none

theorem cn_operand : Ensures (cn g) Form.IsOperand := by
  refine .skip fun _ => .bind (.many1 (pattern_yields hg) (pattern?_yields hg)) fun ds h => ?_
  refine .skip fun _ => open_last hg fun e s he hs => ?_
  exact .open_ (by simpa [Expr.exprs?] using ⟨h, he⟩) rfl hs

theorem insert_operand : Ensures (insert g) Form.IsOperand := by
  refine .skip fun _ => .skip fun _ => .bind (expr_yields hg .bottom) fun e h => .skip fun _ => ?_
  refine .bind (expr_yields hg .bottom) fun e' h' => .skip fun _ => ?_
  refine .bind (expr_yields hg .bottom) fun e'' h'' => .skip fun _ => .pure fun _ => ?_
  exact .closed (by simpa using ⟨h, h', h''⟩) rfl fun _ _ h => nomatch h

theorem ret_operand : Ensures (ret g) Form.IsOperand := by
  refine .skip fun _ => .bind (binder_yields hg true) fun b hb => .skip fun _ => ?_
  refine .bind (expr_yields hg .bottom) fun e h => .skip fun _ => ?_
  refine .bind (expr_yields hg .bottom) fun e' h' => .skip fun _ => ?_
  exact open_last hg fun e'' s h'' hs => .open_ (by simpa using ⟨hb, h, h', h''⟩) rfl hs

theorem uniq_operand : Ensures (uniq g) Form.IsOperand := by
  refine .skip fun _ => .bind (expr_yields hg .bottom) fun e h => .skip fun _ => .pure fun _ => ?_
  exact .closed h rfl fun _ _ h => nomatch h

theorem array_operand : Ensures (array g) Form.IsOperand := by
  refine .skip fun _ => .bind (expr_yields hg .bottom) fun first h => ?_
  refine .bind (Ensures.commaList (expr_yields hg .bottom)).after fun others h' => .skip fun _ => ?_
  refine .bind (expr_yields hg .bottom) fun e h'' => .skip fun _ => .pure fun _ => ?_
  refine .closed ?_ rfl fun _ _ h => nomatch h
  cases others with
  | none => simpa using ⟨h, h''⟩
  | some others => simpa using ⟨⟨h, (grouped_some others).1 h'⟩, h''⟩

theorem pack_operand : Ensures (pack g) Form.IsOperand := by
  refine .skip fun _ => .bind (expr_yields hg .bottom) fun e h => .skip fun _ => ?_
  refine .bind (expr_yields hg .bottom) fun e' h' => .skip fun _ => .pure fun _ => ?_
  exact .closed (by simpa using ⟨h, h'⟩) rfl fun _ _ h => nomatch h

theorem parenthesized_operand : Ensures (parenthesized g) Form.IsOperand := by
  refine .skip fun _ => .bind (.commaList (expr_yields hg .bottom)) fun es h => .skip fun _ => ?_
  exact .pure fun _ => .closed (by simpa using h) rfl fun _ _ h => nomatch h

/-- An arm ends with an expression. -/
theorem arm_ensures : Ensures (arm g) fun a s => Grouped a ∧ s.Below .bottom := by
  refine (Ensures.located (Q := fun a s => Grouped a ∧ s.Below .bottom) ?_).last
    fun a s h => ⟨(grouped_arm ..).2 h.1, h.2⟩
  refine .bind (binder_yields hg true) fun b hb => .skip fun _ => open_last hg fun e s he hs => ?_
  exact ⟨⟨hb, he⟩, hs⟩

theorem firstArm?_ensures :
    Ensures (firstArm? g) fun a s => ∀ b ∈ a, Grouped b ∧ s.Below .bottom := by
  refine .skip fun t => ?_
  split
  · refine .ite ((arm_ensures hg).map fun a s h b hb => ?_) (.pure fun _ _ h => nomatch h)
    obtain rfl : a = b := by simpa using hb
    exact h
  · exact .pure fun _ _ h => nomatch h

theorem match_operand : Ensures (match_ g) Form.IsOperand := by
  refine .skip fun _ => .bind (expr_yields hg .bottom) fun e he => .skip fun _ => ?_
  intro s form s' run
  obtain ⟨first, s₁, run₁, rest⟩ := bind_ok.1 run
  obtain ⟨others, s₂, run₂, done⟩ := bind_ok.1 rest
  obtain ⟨rfl, rfl⟩ := pure_ok.1 done
  have h₁ := firstArm?_ensures hg _ _ _ run₁
  have advances : Advances (after (.symbol .pipe) (arm g)) := after_advances fun run =>
    (InStep.onward (arm_inStep hg.inStep (P := Anywhere)) trivial run).rest.length_le
  obtain ⟨h₂, -, last⟩ := repeats_after (fun run => arm_ensures hg _ _ _ run)
    ((many_ok advances).1 run₂)
  refine ⟨?_, rfl, fun op hop => ?_⟩
  · have all : Grouped (first.toList ++ others) := by
      intro a ha
      rcases List.mem_append.1 ha with ha | ha
      · exact (h₁ a (by simpa using ha)).1
      · exact h₂ a ha
    simpa using ⟨he, all⟩
  · have below : ¬ s₂.Below .bottom := fun below => absurd (below op hop) (by cases op <;> decide)
    rcases last with ⟨rfl, rfl⟩ | ⟨-, last⟩
    · cases first with
      | none => rfl
      | some a => exact absurd (h₁ a rfl).2 below
    · exact absurd last below

theorem operandForm_ensures (least : Prec) : Ensures (operandForm g least) Form.IsOperand := by
  have closed : ∀ {form : Form}, Grouped form → form.operator? = none →
      (∀ op, form.IsLeftOf op) → Ensures (do advance; return form) Form.IsOperand :=
    fun h ho hl => .skip fun _ => .pure fun _ => .closed h ho hl
  refine .skip fun t => ?_
  split
  · exact closed allGroup_nil rfl fun _ _ h => nomatch h
  · exact closed allGroup_nil rfl fun _ _ h => nomatch h
  · exact annexOperand_operand _
  · exact literal_operand hg least _
  · exact bracketed_operand hg
  · exact implicitPi_operand hg
  · exact cnType_operand hg
  · exact fnType_operand hg
  · exact lm_operand hg
  · exact cn_operand hg
  · exact insert_operand hg
  · exact ret_operand hg
  · exact uniq_operand hg
  · exact array_operand hg
  · exact pack_operand hg
  · exact parenthesized_operand hg
  · exact match_operand hg
  · exact closed allGroup_nil rfl fun _ _ h => nomatch h
  · exact .skip fun _ => .invalid
  · exact .ite (block_operand hg) .unexpected
  · exact .unexpected

end Operands

section Expressions

/-- What has been read of an expression may stand to the left of the operator that comes
    next, and a union takes every variant there is. -/
structure IsLhs (e : Expr) (s : Reading) : Prop where
  grouped : Grouped e
  left : ∀ op ∈ s.operator?, e.form.IsLeftOf op
  union : .union ∈ s.operator? → e.form.operator? ≠ some .union

/-- An operator weaker than a right operand may have this operator's form on its left. -/
theorem left_of_lt_rightMin (op next : Operator) (h : next.prec < op.rightMin) :
    if next = .arrow then next.prec < op.prec else next.prec ≤ op.prec := by
  revert h
  cases op <;> cases next <;> decide

/-- The form that an operator makes, all operands of which are where they may stand. -/
structure IsInfix (op : Operator) (form : Form) (s : Reading) : Prop where
  groups : form.Groups
  grouped : Grouped form
  operator : form.operator? = some op
  left : ∀ next ∈ s.operator?, form.IsLeftOf next
  union : .union ∈ s.operator? → op ≠ .union

variable (hg : g.Groups)
include hg

/-- The right operand of an operator that has one. -/
theorem right_infix (op : Operator) (f : Expr → Form) (hop : op ≠ .union)
    (operator : ∀ e, (f e).operator? = some op)
    (left : ∀ e next, (∀ o, (f e).operator? = some o →
      if next = .arrow then next.prec < o.prec else next.prec ≤ o.prec) → (f e).IsLeftOf next)
    (groups : ∀ e, Grouped e → e.form.IsRightOf op → (f e).Groups ∧ Grouped (f e)) :
    Ensures (g.expr op.rightMin >>= fun e => pure (f e)) (IsInfix op) := by
  refine (hg.expr op.rightMin).last fun e s ⟨he, binds, below⟩ => ?_
  refine ⟨(groups e he binds).1, (groups e he binds).2, operator e, fun next hn => ?_, fun _ => hop⟩
  refine left e next fun o ho => ?_
  obtain rfl : op = o := by simpa [operator] using ho
  exact left_of_lt_rightMin op next (below next hn)

theorem union_infix {lhs : Expr} {s s' : Reading} {form : Form} (h : IsLhs lhs s)
    (hs : s.operator? = some .union)
    (run : infixForm g lhs .union s.noted = .ok form s') : IsInfix .union form s' := by
  have token : s.noted.token? = some (.symbol .union) := by
    rw [Reading.token?, s.rest_noted]
    obtain ⟨t, ht, op⟩ := Option.bind_eq_some_iff.1 (Reading.ofToken?_of_operator? hs)
    exact ht.trans (congrArg some (Operator.eq_of_ofToken?_union op))
  have advances : Advances (after (.symbol .union) (infixForm.right g .union)) :=
    after_advances fun run => Nat.le_of_succ_le
      (InStep.onward (P := Anywhere) (hg.inStep.expr _) trivial run).length
  obtain ⟨others, s₁, loop, done⟩ := bind_ok.1 run
  obtain ⟨rfl, rfl⟩ := pure_ok.1 done
  obtain ⟨all, ht, last⟩ := repeats_after (fun run => and_assoc.2 (hg.expr _ _ _ _ run))
    ((many_ok advances).1 loop)
  rcases last with ⟨rfl, rfl⟩ | ⟨ne, below⟩
  · exact absurd token ht
  · refine ⟨⟨?_, ?_, fun e he => (all e he).2, ?_⟩, ?_, rfl, fun next hn => ?_, fun hn => ?_⟩
    · have := List.length_pos_iff.2 ne
      simp only [List.length_cons]
      omega
    · simpa using h.left .union hs
    · refine List.forall_mem_cons.2 ⟨h.union hs, fun e he op => ?_⟩
      exact absurd ((all e he).2 .union op) (by decide)
    · simpa using ⟨h.grouped, fun e he => (all e he).1⟩
    · rintro _ ⟨⟩
      exact left_of_lt_rightMin .union next (below next hn)
    · obtain ⟨t, ht', op⟩ := Option.bind_eq_some_iff.1 (Reading.ofToken?_of_operator? hn)
      exact absurd (ht'.trans (congrArg some (Operator.eq_of_ofToken?_union op))) ht

theorem infixForm_infix {lhs : Expr} {op : Operator} {s s' : Reading} {form : Form}
    (h : IsLhs lhs s) (hop : s.operator? = some op)
    (run : infixForm g lhs op s.noted = .ok form s') : IsInfix op form s' := by
  have left := h.left op hop
  cases op with
  | union => exact union_infix hg h hop run
  | where_ =>
      refine (Ensures.skip fun _ => (whereBody_yields hg).last fun ds s hd => ?_) _ _ _ run
      refine ⟨left, by simpa using ⟨h.grouped, hd⟩, rfl, fun _ _ => trivial, fun _ => nofun⟩
  | arrow =>
      have right := right_infix hg .arrow (.arrow lhs ·) (by decide) (fun _ => rfl)
        (fun _ _ h => h) fun e he hr => ⟨⟨left, hr⟩, by simpa using ⟨h.grouped, he⟩⟩
      exact (Ensures.skip fun _ => right) _ _ _ run
  | injection =>
      have right := right_infix hg .injection (.injection lhs ·) (by decide) (fun _ => rfl)
        (fun _ _ h => h) fun e he hr => ⟨⟨left, hr⟩, by simpa using ⟨h.grouped, he⟩⟩
      exact (Ensures.skip fun _ => right) _ _ _ run
  | application =>
      have right := right_infix hg .application (.application lhs · false) (by decide)
        (fun _ => rfl) (fun _ _ h => h) fun e he hr => ⟨⟨left, hr⟩, by simpa using ⟨h.grouped, he⟩⟩
      exact right _ _ _ run
  | explicitApplication =>
      have right := right_infix hg .explicitApplication (.application lhs · true) (by decide)
        (fun _ => rfl) (fun _ _ h => h) fun e he hr => ⟨⟨left, hr⟩, by simpa using ⟨h.grouped, he⟩⟩
      exact (Ensures.skip fun _ => right) _ _ _ run
  | extraction =>
      have right := right_infix hg .extraction (.extraction lhs ·) (by decide) (fun _ => rfl)
        (fun _ _ h => h) fun e he hr => ⟨⟨left, hr⟩, by simpa using ⟨h.grouped, he⟩⟩
      exact (Ensures.skip fun _ => right) _ _ _ run

/-- An operand with all the operators after it that are strong enough. -/
theorem grows_groups {least : Prec} {lhs e : Expr} {s s' : Reading}
    (grows : Grows (extend? g least) lhs s e s') (h : IsLhs lhs s) (hl : lhs.form.Binds least) :
    Grouped e ∧ e.form.Binds least ∧ s'.Below least := by
  induction grows with
  | stop run =>
      rcases extend?_ok.1 run with ⟨below, -, rfl⟩ | ⟨_, -, -, _, none, -⟩
      · refine ⟨h.grouped, hl, ?_⟩
        rwa [Reading.Below, Reading.operator?, Reading.token?, Reading.rest_noted]
      · cases none
  | more run _ ih =>
      rcases extend?_ok.1 run with ⟨-, none, -⟩ | ⟨op, hop, strong, e', eq, run⟩
      · cases none
      · obtain rfl := Option.some.inj eq
        obtain ⟨form, s₂, inner, done⟩ := bind_ok.1 run
        rw [get_bind] at done
        obtain ⟨rfl, rfl⟩ := pure_ok.1 done
        obtain ⟨groups, grouped, operator, left, union⟩ := infixForm_infix hg h hop inner
        refine ih ⟨?_, left, fun hn => ?_⟩ fun o ho => ?_
        · exact (grouped_expr ..).2 ⟨groups, grouped⟩
        · simpa [operator] using union hn
        · obtain rfl : op = o := by simpa [operator] using ho
          exact Int.not_lt.1 strong

theorem expr_groups (least : Prec) :
    Ensures (expr g least) fun e s => Grouped e ∧ e.form.Binds least ∧ s.Below least := by
  intro s e s' run
  obtain ⟨lhs, s₁, first, rest⟩ := bind_ok.1 run
  have advances : ∀ a, Advances (extend? g least a) := fun _ _ _ _ run =>
    (extend?_onward hg.inStep run).length
  have operand : Ensures (operand g least) fun e s => e.form.IsOperand s :=
    (operandForm_ensures hg least).located.last fun _ _ h => h
  obtain ⟨grouped, operator, left⟩ := operand _ _ _ first
  refine grows_groups hg ((grow_ok advances).1 rest) ⟨?_, left, fun _ => by simp [operator]⟩ ?_
  · obtain ⟨form, span⟩ := lhs
    exact (grouped_expr form span).2 ⟨Form.groups_of_operator?_eq_none operator, grouped⟩
  · simp [Form.Binds, operator]

end Expressions

/-- Forms nested to any depth group. -/
theorem groups_upTo : ∀ n, (Nested.upTo n).Groups
  | 0 => ⟨fun _ => .unexpected, fun _ => .unexpected, nests_self⟩
  | n + 1 => ⟨expr_groups (groups_upTo n), tuple_yields (groups_upTo n), nests_self⟩

theorem file_yields {g : Nested} (hg : g.Groups) : Yields (file g) := by
  have declaration : Yields (fileDeclaration g) := by
    have read : Yields (do
        let d ← declaration g
        discard (accept (.symbol .semicolon))
        return d) :=
      .bind (declaration_yields hg) fun d h => .skip fun _ => .pure fun _ => h
    exact .skip fun _ => .ite (.skip fun _ => .skip fun _ => read) read
  have declarations : Yields (declarations g) := by
    refine .many (.skip fun t => ?_)
    split
    · exact .pure fun _ => grouped_none
    · exact (Ensures.declarationOrError declaration).map fun d _ h => (grouped_some d).2 h
  refine .bind (.place (.skip fun dependencies => ?_)) fun a ha =>
    .pure fun _ => (grouped_file ..).2 ha.1.2
  exact declarations.last fun ds _ h => ⟨fun _ _ => trivial, h⟩

end Grammar

/-- Every infix form groups by precedence, wherever it stands in a file or in an expression
    that is read by itself, whatever the tokens are. -/
theorem operators_group_by_precedence (s : Reading) :
    (∀ e ∈ s.file.1.exprs, e.form.Groups) ∧
      ∀ e s', expression s = .ok e s' → ∀ x ∈ e.exprs, x.form.Groups := by
  have groups := groups_upTo (s.rest.length + 1)
  constructor
  · unfold Reading.file
    cases run : file s.nested s with
    | ok f s' => exact file_yields groups s f s' run
    | error e s' => exact allGroup_nil
  · intro e s' run
    exact (groups.expr .bottom s e s' run).1

end Mim
