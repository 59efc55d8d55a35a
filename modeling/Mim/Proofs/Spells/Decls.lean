import Mim.Proofs.Spells.Binders

/-! # Declarations are read as they are written -/

namespace Mim

open Simulation (Anywhere)
open Grammar Token Mode Layout
open Nested (full)

variable {m : Mode} {P : Option Token → Prop} {l₀ : List Token}

namespace Grammar

section Axioms

theorem curry_spells :
    Spells m P .phrase [] curry curry fun n => [.literal (.int n)] := by
  refine SpellsIf.peek fun t _ => ?_
  split
  · next n _ =>
      refine SpellsIf.span fun _ _ _ => SpellsIf.advance rfl ?_
      split
      · next bounds =>
          refine SpellsIf.pure rfl ?_
          have nonneg : 0 ≤ n := by simpa using (Bool.and_eq_true_iff.1 bounds).1
          simp [Int.toNat_of_nonneg nonneg]
      · exact SpellsIf.invalid _ _
  · exact SpellsIf.unexpected _

/-- The tokens of a count and of the name after it. -/
def curryAndTripTokens (c : Nat × Option Ident) : List Token :=
  .literal (.int c.1) :: c.2.elim [] fun i => .symbol .comma :: i.layout.tokens

theorem curryAndTrip_spells :
    Spells m P .phrase [] curryAndTrip curryAndTrip curryAndTripTokens := by
  refine curry_spells.bind fun _ _ same => ?_
  refine (SpellsIf.after Grade.leads_comma rfl rfl identifier_spells).append fun _ _ same' => ?_
  exact SpellsIf.pure (Same.prod_iff.2 ⟨same, same'⟩) rfl

/-- The tokens of what follows the type of an axiom, after the comma. -/
def axmOptionsTokens : Option Ident × Option (Nat × Option Ident) → List Token
  | (some normalizer, count) =>
    normalizer.layout.tokens ++ count.elim [] fun c => .symbol .comma :: curryAndTripTokens c
  | (none, count) => count.elim [] curryAndTripTokens

theorem axmOptions_spells :
    Spells m P .phrase [] axmOptions axmOptions axmOptionsTokens := by
  have run : ∀ s : Reading, axmOptions s =
      (if s.token?.any isGroupAhead.isIdent then
        (do
          let normalizer ← identifier
          return (some normalizer, ← after (.symbol .comma) curryAndTrip))
      else do return (none, some (← curryAndTrip))) s := by
    intro s
    unfold axmOptions
    rw [bind_congr (identifier?_run s)]
    split
    · rw [map_eq_bind, bind_assoc]
      rfl
    · rfl
  refine SpellsIf.branch (c := fun t => t.any isGroupAhead.isIdent) run run ?_ ?_
  · refine identifier_spells.bind fun _ _ same => ?_
    refine (SpellsIf.after Grade.leads_comma rfl rfl curryAndTrip_spells).append fun _ _ same' => ?_
    exact SpellsIf.pure (Same.prod_iff.2 ⟨congrArg some same, same'⟩) rfl
  · refine curryAndTrip_spells.bind fun _ _ same => ?_
    exact SpellsIf.pure (Same.prod_iff.2 ⟨rfl, congrArg some same⟩) rfl

/-- What follows the comma is not empty. -/
theorem axmOptions_ne {s s' : Reading} {o : Option Ident × Option (Nat × Option Ident)}
    (run : axmOptions s = .ok o s') : o ≠ (none, none) := by
  obtain ⟨r, s₁, -, rest⟩ := bind_ok.1 run
  cases r with
  | some normalizer =>
      obtain ⟨c, s₂, -, done⟩ := bind_ok.1 rest
      obtain ⟨rfl, -⟩ := pure_ok.1 done
      simp
  | none =>
      obtain ⟨c, s₂, -, done⟩ := bind_ok.1 rest
      obtain ⟨rfl, -⟩ := pure_ok.1 done
      simp

theorem tokens_axmOptions {o : Option Ident × Option (Nat × Option Ident)} (ne : o ≠ (none, none)) :
    (DeclForm.layout.axmOptions o.1 o.2).tokens = .symbol .comma :: axmOptionsTokens o := by
  rcases o with ⟨_ | normalizer, _ | ⟨count, _ | trip⟩⟩
  · exact absurd rfl ne
  all_goals simp [DeclForm.layout.axmOptions, axmOptionsTokens, curryAndTripTokens]

end Axioms

section Declarations

variable {g : Nested} (hg : g.Spelled m)
include hg

/-- An expression after a marker. -/
theorem afterExpr_spells {marker : Token} (plain : marker.isPlain) (shut : marker.isShut = false)
    (declares : marker.startsDeclaration = false) :
    Spells m P .piece [] (after marker (anyExpr g)) (after marker (anyExpr full))
      fun r => r.elim [] fun e => marker :: e.layout.tokens :=
  SpellsIf.after (Grade.leads_plain plain) shut declares (anyExpr_spells hg)

theorem axm_spells : Spells m P .phrase [] (axm g) (axm full) fun form => form.layout.tokens := by
  refine SpellsIf.expect rfl (annex_spells.bind fun name name' same => SpellsIf.expect rfl ?_)
  refine (anyExpr_spells hg).bind fun ty ty' same' => ?_
  intro s form s' hs run
  obtain ⟨r, s₁, first, done⟩ := bind_ok.1 run
  have options := SpellsIf.after (m := m) (P := Anywhere) Grade.leads_comma rfl rfl axmOptions_spells
  refine (options s r s₁ trivial first).shift.append Looks.follow fun r' sames => ?_
  cases r with
  | none =>
      obtain ⟨rfl, rfl⟩ := pure_ok.1 done
      obtain rfl := sames.of_none
      have nodes := Same.map₂ (f := fun name ty => DeclForm.axm name ty none none)
        (fun _ _ => rfl) same same'
      simpa [DeclForm.layout, DeclForm.layout.axmOptions] using SpelledIf.pure nodes
  | some o =>
      obtain ⟨rfl, rfl⟩ := pure_ok.1 done
      obtain ⟨o', rfl, same₃⟩ := sames.of_some
      have ne : o ≠ (none, none) := by
        rcases after_ok.1 first with ⟨-, o₁, some_eq, run⟩ | ⟨-, none_eq, -⟩
        · rw [Option.some.inj some_eq]
          exact axmOptions_ne run
        · cases none_eq
      have nodes := Same.map₃ (f := fun name ty o => DeclForm.axm name ty o.1 o.2)
        (fun _ _ _ => rfl) same same' same₃
      simpa [DeclForm.layout, tokens_axmOptions ne] using SpelledIf.pure nodes

theorem cfun_spells : Spells m P .phrase [] (cfun g) (cfun full) fun form => form.layout.tokens := by
  have type_ : ∀ domain domain' : Binder, m.Same domain domain' →
      Spells m Anywhere .piece ([.keyword .cfun] ++ domain.layout.tokens)
        (do expect (.symbol .colon); return DeclForm.cfun domain (← anyExpr g))
        (do expect (.symbol .colon); return DeclForm.cfun domain' (← anyExpr full))
        fun form => form.layout.tokens := by
    intro domain domain' same
    refine SpellsIf.expect rfl ((anyExpr_spells hg).bind fun ty ty' same' => ?_)
    exact SpellsIf.pure (Same.map₂ (fun _ _ => rfl) same same') (by simp [DeclForm.layout])
  have pure_ : ∀ {P}, Spells m P .phrase [.keyword .cfun]
      (do let ty ← g.expr .pi; expect (.symbol .colon); return DeclForm.cfun (.type ty) (← anyExpr g))
      (do let ty ← full.expr .pi; expect (.symbol .colon); return .cfun (.type ty) (← anyExpr full))
      fun form => form.layout.tokens :=
    (expr_spells hg .pi).bind fun ty ty' same =>
      type_ (.type ty) (.type ty') (same.map (f := Binder.type) fun _ => rfl)
  refine SpellsIf.expect rfl (SpellsIf.loosen (SpellsIf.sees ?_ ?_))
  · exact (battern_spells hg .pi).bind fun _ _ same => type_ _ _ same
  · refine SpellsIf.ask (c := fun t => t.any isGroupAhead.isIdent) identifierAhead_run fun ahead =>
      SpellsIf.colonFollows (fun _ => SpellsIf.ite ?_ pure_) (.inr ?_)
    · exact SpellsIf.span fun _ _ _ => SpellsIf.note pure_
    · cases ahead with
      | true => exact SpellsIf.noteHere_left pure_
      | false => exact pure_

theorem ccon_spells : Spells m P .phrase [] (ccon g) (ccon full) fun form => form.layout.tokens :=
  SpellsIf.expect rfl <| (battern_spells hg .pi).bind fun _ _ same =>
    SpellsIf.pure (same.map (f := DeclForm.ccon) fun _ => rfl) rfl

theorem let_spells : Spells m P .phrase [] (let_ g) (let_ full) fun form => form.layout.tokens := by
  refine SpellsIf.expect rfl (SpellsIf.loosen (SpellsIf.ask (c := fun t => t.any isAnnex)
    annexAhead_run fun b => ?_))
  cases b with
  | true =>
      refine annex_spells.bind fun _ _ same => SpellsIf.expect rfl ?_
      refine (anyExpr_spells hg).bind fun _ _ same' => ?_
      exact SpellsIf.pure (Same.map₂ (fun _ _ => rfl) same same') (by simp [DeclForm.layout])
  | false =>
      refine (binder_spells hg true).bind fun _ _ same => SpellsIf.expect rfl ?_
      refine (anyExpr_spells hg).bind fun _ _ same' => ?_
      exact SpellsIf.pure (Same.map₂ (fun _ _ => rfl) same same') (by simp [DeclForm.layout])

/-- The filter of a parameter. -/
theorem filter_spells {domain domain' : Binder} (same : m.Same domain domain') :
    Spells m (· = some (.symbol .atSign)) .phrase domain.layout.tokens
      (do advance; return (domain, some (← g.expr .union)))
      (do advance; return (domain', some (← full.expr .union)))
      fun r => Param.tokens ⟨r.1, r.2, Span.zero⟩ :=
  SpellsIf.advance rfl <| (expr_spells hg .union).bind fun _ _ same' =>
    SpellsIf.pure (Same.prod_iff.2 ⟨same, congrArg some same'⟩) (by simp [Param.tokens])

theorem param_spells : Spells m P .phrase [] (param g) (param full) Param.tokens := by
  refine SpellsIf.node (fun p => Param.mk p.1.1 p.1.2 p.2) ?_
    (fun _ => rfl) (fun _ => rfl) (fun _ => Param.respan_mk ..) (fun _ _ => rfl)
  refine (domain_spells hg).bind fun domain domain' same => ?_
  refine SpellsIf.maySee rfl rfl ?_ (SpellsIf.pure (Same.prod_iff.2 ⟨same, rfl⟩)
    (by simp [Param.tokens]))
  have noted := filter_spells hg same
  cases domain with
  | type =>
      cases domain' with
      | type => exact SpellsIf.noteHere_left (SpellsIf.noteHere_right noted)
      | name | typed | group | tuple => exact SpellsIf.noteHere_left noted
  | name | typed | group | tuple =>
      cases domain' with
      | type => exact SpellsIf.noteHere_right noted
      | name | typed | group | tuple => exact noted

omit hg in
theorem param?_run (g : Nested) (s : Reading) : param? g s =
    (if s.token?.any startsDomain then some <$> param g else pure none) s := by
  unfold param?
  rw [peek_bind]
  cases s.token? with
  | none => rfl
  | some t => cases h : t.startsDomain <;> simp [h]

omit hg in
theorem param?_advances (hg : ∀ {σ : Simulation} {n : Nat}, σ.Nests n g g) : Advances (param? g) :=
  optional_advances (param?_run g) fun run =>
    (Simulation.InStep.onward (param_inStep (P := Anywhere) hg) trivial run).length

omit hg in
theorem startsDomain_stops (t : Token) (ht : t.isShut ∨ t.startsDeclaration) :
    t.startsDomain = false := by
  unfold startsDomain
  rcases ht with ht | ht
  · unfold isShut at ht
    split at ht <;> first | rfl | cases ht
  · simp [ht]

theorem param?_spells :
    Spells m P .piece [] (param? g) (param? full) fun r => r.elim [] Param.tokens :=
  SpellsIf.optional startsDomain_stops (param?_run g) (param?_run full) (param_spells hg)

theorem params_spells : Spells m P .piece [] (many (param? g)) (many (param? full))
    fun ps => ps.flatMap Param.tokens :=
  (SpellsIf.many Looks.follow (param?_advances hg.inStep) (param?_advances Nested.nests_full_self)
    (param?_spells hg)).anywhere

omit hg in
theorem Lam.tokens_layout (kind : LamKind) (isExternal : Bool) (name : Name) (params : List Param)
    (codomain body : Option Expr) (place : Span) :
    (Lam.mk kind isExternal name params codomain body place).layout.tokens =
      [.keyword kind.keyword] ++ (if isExternal then [.keyword .external] else []) ++
        name.layout.tokens ++ params.flatMap Param.tokens ++
        (codomain.elim [] fun e => .symbol .colon :: e.layout.tokens) ++
        body.elim [] fun e => .symbol .assign :: e.layout.tokens := by
  cases isExternal <;>
    simp [Lam.layout, Expr.tokens_layoutAfter, Param.tokens_layoutEach]

omit hg in
theorem lamKind?_eq_some {t : Token} {kind : LamKind} (h : lamKind? t = some kind) :
    t = .keyword kind.keyword := by
  unfold lamKind? at h
  split at h <;> first | (cases h; rfl) | cases h

/-- A function after its keyword, where it is known whether it is external. -/
theorem lamRest_spells (kind : LamKind) (isExternal : Bool) :
    Spells m P .phrase ([.keyword kind.keyword] ++ if isExternal then [.keyword .external] else [])
      (do
        let name ← name
        let params ← many (param? g)
        let codomain ← after (.symbol .colon) (anyExpr g)
        let body ← after (.symbol .assign) (anyExpr g)
        return (kind, isExternal, name, params, codomain, body))
      (do
        let name ← name
        let params ← many (param? full)
        let codomain ← after (.symbol .colon) (anyExpr full)
        let body ← after (.symbol .assign) (anyExpr full)
        return (kind, isExternal, name, params, codomain, body))
      fun (kind, isExternal, name, params, codomain, body) =>
        (Lam.mk kind isExternal name params codomain body Span.zero).layout.tokens := by
  refine name_spells.bind fun name _ same₁ => (params_spells hg).append fun params _ same₂ => ?_
  refine (afterExpr_spells hg rfl rfl rfl).append fun codomain _ same₃ => ?_
  refine (afterExpr_spells hg rfl rfl rfl).append fun body _ same₄ => ?_
  exact SpellsIf.pure (Same.prod_iff.2 ⟨rfl, Same.prod_iff.2 ⟨rfl, Same.prod_iff.2 ⟨same₁,
    Same.prod_iff.2 ⟨same₂, Same.prod_iff.2 ⟨same₃, same₄⟩⟩⟩⟩⟩) (Lam.tokens_layout ..)

theorem lam_spells : Spells m P .phrase [] (lam g) (lam full) fun l => l.layout.tokens := by
  refine SpellsIf.node (fun p =>
    Lam.mk p.1.1 p.1.2.1 p.1.2.2.1 p.1.2.2.2.1 p.1.2.2.2.2.1 p.1.2.2.2.2.2 p.2) ?_
    (fun _ => rfl) (fun _ => rfl) (fun _ => Lam.respan_mk ..) (fun _ _ => rfl)
  refine SpellsIf.peek fun t _ => ?_
  split
  · exact SpellsIf.unexpected _
  · next kind hk =>
      obtain ⟨token, rfl, hk⟩ := Option.bind_eq_some_iff.1 hk
      obtain rfl := lamKind?_eq_some hk
      have plain : (Token.keyword kind.keyword).isPlain := by cases kind <;> rfl
      refine SpellsIf.advance plain (SpellsIf.loosen (SpellsIf.accept ?_ (lamRest_spells hg kind false)))
      exact SpellsIf.expect rfl (lamRest_spells hg kind true).loosen

theorem recBinding_spells :
    Spells m P .phrase [] (recBinding g) (recBinding full) RecBinding.tokens := by
  refine SpellsIf.node (fun p => RecBinding.mk p.1.1 p.1.2.1 p.1.2.2 p.2) ?_
    (fun _ => rfl) (fun _ => rfl) (fun _ => RecBinding.respan_mk ..) (fun _ _ => rfl)
  refine name_spells.bind fun name _ same₁ => ?_
  refine (afterExpr_spells hg rfl rfl rfl).append fun ty _ same₂ => SpellsIf.expect rfl ?_
  refine (anyExpr_spells hg).bind fun value _ same₃ => ?_
  exact SpellsIf.pure (Same.prod_iff.2 ⟨same₁, Same.prod_iff.2 ⟨same₂, same₃⟩⟩)
    (by simp [RecBinding.tokens])

/-- Whether what is seen goes on with a member of a recursive group that is no function. -/
def goesOnRec (seen : Option Token × Bool) : Bool :=
  seen.1 == some (.keyword .and_) && !seen.2

omit hg in
theorem nextRecBinding?_run (g : Nested) (s : Reading) : nextRecBinding? g s =
    (if goesOnRec (look s.tokens) then
      some <$> (expect (.keyword .and_) >>= fun _ => recBinding g) else pure none) s := by
  unfold nextRecBinding?
  rw [peekAt_bind, ← Reading.getElem?_tokens]
  have after := after_run (.keyword .and_) (recBinding g) s
  rw [← Reading.head?_tokens] at after
  generalize s.tokens = ts at after ⊢
  unfold goesOnRec
  rw [head_look]
  by_cases ht : ts.head? = some (.keyword .and_)
  · obtain ⟨ts, rfl⟩ : ∃ ts', ts = .keyword .and_ :: ts' := by
      cases ts with
      | nil => cases ht
      | cons t ts => exact ⟨ts, by rw [Option.some.inj ht]⟩
    simp only [look, List.getElem?_cons_succ, ← List.head?_eq_getElem?]
    by_cases lam : (ts.head?.bind lamKind?).isSome
    · simp [lam]
    · simpa [lam] using after
  · have no : (ts.head? == some (.keyword .and_)) = false := by simpa using ht
    have none_ : ts.head?.any (· == .keyword .and_) = false := by
      cases hs : ts.head? with
      | none => rfl
      | some t => simpa [hs] using ht
    rw [none_] at after
    rw [no]
    split
    · rfl
    · exact after

theorem nextRecBinding?_spells :
    Spells m P .piece [] (nextRecBinding? g) (nextRecBinding? full)
      fun r => r.elim [] fun b => .keyword .and_ :: b.tokens := by
  refine SpellsIf.choose (fun follow => follow.stops (c := goesOnRec) rfl fun t ht => ?_)
    (nextRecBinding?_run g) (nextRecBinding?_run full) (fun s r s' _ _ run => ?_)
    (SpellsIf.pure (Same.refl none) rfl)
  · cases t with
    | keyword word => cases word <;> first | rfl | (rcases ht with ht | ht <;> cases ht)
    | _ => rfl
  · have and_ : Spells m Anywhere .phrase [] (expect (.keyword .and_) >>= fun _ => recBinding g)
        (expect (.keyword .and_) >>= fun _ => recBinding full) fun b => .keyword .and_ :: b.tokens :=
      SpellsIf.expect_with Grade.leads_and ((recBinding_spells hg).shift fun _ => rfl)
    exact and_.some_map s r s' trivial run

omit hg in
theorem recBinding_length (hg : ∀ {σ : Simulation} {n : Nat}, σ.Nests n g g) {s s' : Reading}
    {b : RecBinding} (run : recBinding g s = .ok b s') : s'.rest.length < s.rest.length :=
  (Simulation.InStep.onward (recBinding_inStep (P := Anywhere) hg) trivial run).length

omit hg in
theorem nextRecBinding?_advances (hg : ∀ {σ : Simulation} {n : Nat}, σ.Nests n g g) :
    Advances (nextRecBinding? g) := by
  refine optional_advances (nextRecBinding?_run g) fun {s a s'} run => ?_
  obtain ⟨_, s₁, first, rest⟩ := bind_ok.1 run
  obtain ⟨hs, rfl⟩ := expect_ok.1 first
  have shorter := Reading.length_advance hs
  have length := recBinding_length hg rest
  omega

theorem rec_spells : Spells m P .phrase [] (rec_ g) (rec_ full) fun form => form.layout.tokens := by
  refine SpellsIf.expect rfl ?_
  refine ((recBinding_spells hg).many1 (nextRecBinding?_advances hg.inStep)
    (nextRecBinding?_advances Nested.nests_full_self) (nextRecBinding?_spells hg)).bind
    fun bindings _ same => ?_
  refine (SpellsIf.after Grade.leads_and rfl rfl (lam_spells hg)).append fun lam _ same' => ?_
  refine SpellsIf.pure (Same.map₂ (fun _ _ => DeclForm.respan_rec ..) same same') ?_
  cases lam <;> cases bindings <;>
    simp [DeclForm.layout, tokens_join, RecBinding.tokens_layouts, Lam.layoutAfter,
      RecBinding.layouts, Token.intercalate_cons, List.flatMap_map]

/-- A rule after its keyword. -/
theorem ruleRest_spells (kind : RuleKind) :
    Spells m P .phrase [.keyword kind.keyword]
      (do
        let binder ← binder g false
        expect (.symbol .colon)
        let lhs ← anyExpr g
        let guard ← after (.keyword .when_) (anyExpr g)
        expect (.symbol .fatArrow)
        return DeclForm.rule kind binder lhs guard (← anyExpr g))
      (do
        let binder ← binder full false
        expect (.symbol .colon)
        let lhs ← anyExpr full
        let guard ← after (.keyword .when_) (anyExpr full)
        expect (.symbol .fatArrow)
        return DeclForm.rule kind binder lhs guard (← anyExpr full))
      fun form => form.layout.tokens := by
  refine (binder_spells hg false).bind fun _ _ same₁ => SpellsIf.expect rfl ?_
  refine (anyExpr_spells hg).bind fun _ _ same₂ => ?_
  refine (afterExpr_spells hg rfl rfl rfl).append fun _ _ same₃ => SpellsIf.expect rfl ?_
  refine (anyExpr_spells hg).bind fun _ _ same₄ => ?_
  refine SpellsIf.pure ((Same.prod_iff.2 ⟨same₁, Same.prod_iff.2 ⟨same₂, Same.prod_iff.2
    ⟨same₃, same₄⟩⟩⟩).map (f := fun r => DeclForm.rule kind r.1 r.2.1 r.2.2.1 r.2.2.2)
    fun _ => DeclForm.respan_rule ..) ?_
  simp [DeclForm.layout, Expr.tokens_layoutAfter]

theorem rule_spells : Spells m P .phrase [] (rule g) (rule full) fun form => form.layout.tokens := by
  refine SpellsIf.accept ?_ ?_
  · exact SpellsIf.expect rfl (ruleRest_spells hg .norm).loosen
  · exact SpellsIf.expect rfl (ruleRest_spells hg .rule).loosen

theorem declForm_spells :
    Spells m P .phrase [] (declForm g) (declForm full) fun form => form.layout.tokens := by
  have lams : ∀ {P}, Spells m P .phrase [] (DeclForm.lam <$> lam g) (.lam <$> lam full)
      fun form => form.layout.tokens :=
    (lam_spells hg).map (fun _ _ same => same.map fun _ => rfl) fun _ => rfl
  refine SpellsIf.peek fun t _ => ?_
  split
  · exact axm_spells hg
  · exact cfun_spells hg
  · exact ccon_spells hg
  · exact let_spells hg
  · exact rec_spells hg
  · exact lams
  · exact lams
  · exact lams
  · exact rule_spells hg
  · exact rule_spells hg
  · exact SpellsIf.unexpected _

end Declarations

end Grammar

end Mim
