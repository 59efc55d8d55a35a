import Mathlib.Logic.Function.Iterate
import Mim.Proofs.InStep

/-! # The grammar goes in step

Every rule of the grammar decides by what is in step on both sides only. The rules are
relative to a `Nested`, and each calls it after at least one token more has been read;
so where the two sides agree below `m` tokens, the rules agree below `m + 1`.
-/

namespace Mim

open Simulation Grammar

/-- What is nested agrees on readings in step of fewer than `m` tokens. -/
structure Simulation.Nests (σ : Simulation) (m : Nat) (g g' : Nested) : Prop where
  expr (least : Prec) : σ.InStep Anywhere 1 m (g.expr least) (g'.expr least)
  tuple (bracket : Bracket) :
    σ.InStep (· = some bracket.open_) 1 m (g.tuple bracket) (g'.tuple bracket)

/-- How to read what is nested where `g` reads what is nested one deeper. -/
def Nested.deeper (g : Nested) : Nested := ⟨Grammar.expr g, Grammar.tuple g⟩

theorem Nested.upTo_eq : ∀ n, upTo n = deeper^[n] none_
  | 0 => rfl
  | n + 1 => by
      rw [Function.iterate_succ_apply', ← upTo_eq n]
      rfl

namespace Grammar

variable {σ : Simulation} {P : Option Token → Prop} {m : Nat} {g g' : Nested}

section Names

theorem identifier_inStep : σ.InStep P 1 m identifier identifier := by
  refine InStep.peek fun t _ => ?_
  split
  · exact InStep.span fun _ => (InStep.advance_some _).before fun _ => InStep.pure rfl
  · exact InStep.unexpected _

theorem identifier?_inStep : σ.InStep P 0 m identifier? identifier? := by
  refine InStep.peek fun t _ => ?_
  split
  · exact identifier_inStep.loose.some_map
  · exact InStep.pure rfl

theorem subtag_inStep : σ.InStep P 1 m subtag subtag := by
  have alias_ : σ.InStep Anywhere 0 m
      (do if ← accept (.symbol .assign) then some <$> identifier else return none)
      (do if ← accept (.symbol .assign) then some <$> identifier else return none) :=
    (InStep.accept _).bind fun
      | true => identifier_inStep.loose.some_map
      | false => InStep.pure rfl
  refine (InStep.located ?_).before fun _ => InStep.pure rfl
  refine identifier_inStep.before fun tag => ?_
  exact (InStep.many alias_).bind fun _ => InStep.pure rfl

theorem subtagList_inStep : σ.InStep P 1 m subtagList subtagList :=
  (InStep.expect _).before fun _ => (InStep.commaList subtag_inStep).bind fun _ =>
    (InStep.expect _).bind fun _ => InStep.pure rfl

theorem barePercent_inStep {α : Type} [Spanned α] {k : Nat} :
    σ.InStep (· = some .percent) k m (barePercent : Parser α) barePercent :=
  InStep.mark_some nofun fun _ marked => InStep.invalid _ marked

theorem annex_inStep : σ.InStep P 1 m annex annex := by
  refine (InStep.located ?_).before fun _ => InStep.pure rfl
  refine InStep.peek fun t _ => ?_
  split
  · refine (InStep.advance_some _).before fun _ => ?_
    intro s u hr _ hm
    rw [get_bind, get_bind, subtagListAhead_eq, subtagListAhead_eq, tokens_eq hr]
    cases ahead : isSubtagListAhead (s.rest.map Item.token) with
    | false => exact InStep.pure (P := Anywhere) rfl s u hr trivial hm
    | true =>
        have paren := leftParen_of_isSubtagListAhead ahead
        rw [List.head?_map] at paren
        refine InStep.ite (P := (· = some (.symbol .leftParen))) (InStep.pure rfl)
          (InStep.ite ?_ ?_) s u hr paren hm
        · exact InStep.mark_some nofun fun _ marked => InStep.invalid _ marked
        · exact subtagList_inStep.bind fun _ => InStep.pure rfl
  · exact barePercent_inStep
  · exact InStep.unexpected _

theorem annexAhead_inStep : σ.InStep P 0 m annexAhead annexAhead := by
  refine InStep.peek fun t _ => ?_
  split <;> exact InStep.pure rfl

theorem name_inStep : σ.InStep P 1 m name name := by
  refine annexAhead_inStep.bind fun
    | true => annex_inStep.before fun _ => InStep.pure rfl
    | false => InStep.peek fun t _ => ?_
  split
  · exact identifier_inStep.before fun _ => InStep.pure rfl
  · exact InStep.unexpected _

end Names

section Binders

variable (hg : σ.Nests m g g')
include hg

theorem typed_inStep : σ.InStep P 1 m (typed g) (typed g') := by
  refine (InStep.located ?_).before fun _ => InStep.pure rfl
  refine identifier_inStep.before fun _ => (InStep.expect _).bind fun _ => ?_
  exact (hg.expr .bottom).bind fun _ => InStep.pure rfl

/-- A group may have no names as far as this rule goes, but it has a colon. -/
theorem group_inStep : σ.InStep P 1 m (group g) (group g') := by
  refine (InStep.located ?_).before fun _ => InStep.pure rfl
  have names := InStep.many (σ := σ) (m := m) identifier?_inStep
  refine names.anywhere.bind' (j := 1) fun _ => (InStep.expect _).before fun _ => ?_
  exact (hg.expr .bottom).loose.bind fun _ => InStep.pure rfl

omit hg in
theorem colonFollows_inStep {α : Type} [Spanned α] {k : Nat} {f f' : Bool → Parser α}
    (h : ∀ b, σ.InStep P k m (f b) (f' b)) :
    σ.InStep P k m (colonFollows >>= f) (colonFollows >>= f') := by
  change σ.InStep P k m (peekAt 1 >>= fun t => f (t == some (.symbol .colon)))
    (peekAt 1 >>= fun t => f' (t == some (.symbol .colon)))
  exact InStep.peekAt fun _ => h _

theorem pattern_inStep : σ.InStep P 1 m (pattern g) (pattern g') := by
  refine InStep.peek fun t _ => ?_
  split
  · exact hg.tuple .round
  · exact colonFollows_inStep fun
      | true => typed_inStep hg
      | false => identifier_inStep.before fun _ => InStep.pure rfl
  · exact InStep.unexpected _

theorem battern_inStep (least : Prec) : σ.InStep P 1 m (battern g least) (battern g' least) := by
  refine InStep.peek fun t _ => ?_
  split
  · exact hg.tuple .square
  · exact colonFollows_inStep fun
      | true => typed_inStep hg
      | false => (hg.expr least).anywhere.before fun _ => InStep.pure rfl
  · exact (hg.expr least).anywhere.before fun _ => InStep.pure rfl

omit hg in
theorem groupAhead_inStep {α : Type} [Spanned α] {k : Nat} {f f' : Bool → Parser α}
    (yes : σ.InStep Intact k m (f true) (f' true)) (no : σ.InStep P k m (f false) (f' false)) :
    σ.InStep P k m (groupAhead >>= f) (groupAhead >>= f') := by
  intro s u hr hs hm
  rw [bind_of_ok groupAhead_run, bind_of_ok groupAhead_run, tokens_eq hr]
  cases ahead : isGroupAhead (s.rest.map Item.token) with
  | false => exact no s u hr hs hm
  | true =>
      obtain ⟨name, head⟩ := isIdent_of_isGroupAhead ahead
      rw [List.head?_map] at head
      exact yes s u hr ⟨.ident name, head, nofun⟩ hm

theorem element_inStep (bracket : Bracket) :
    σ.InStep P 1 m (element g bracket) (element g' bracket) := by
  refine groupAhead_inStep ?_ ?_
  · rw [if_pos rfl, if_pos rfl]
    refine InStep.ite (group_inStep hg) ?_
    exact InStep.mark (fun _ h => h) fun _ marked => InStep.note _ marked (group_inStep hg)
  · cases bracket with
    | round => exact pattern_inStep hg
    | square | curly => exact battern_inStep hg .bottom

/-- A tuple reads its opening bracket before anything nested. -/
theorem tuple_inStep (bracket : Bracket) :
    σ.InStep (· = some bracket.open_) 1 (m + 1) (tuple g bracket) (tuple g' bracket) := by
  refine (InStep.located ?_).before fun _ => InStep.pure (Binder.respan_tuple ..).symm
  refine (InStep.advance_some _).next fun _ => ?_
  exact (InStep.commaList (element_inStep hg bracket)).bind fun _ =>
    (InStep.expect _).bind fun _ => InStep.pure rfl

omit hg in
theorem binderName_inStep :
    σ.InStep P 1 m (do return Binder.name (← identifier)) (do return .name (← identifier)) :=
  identifier_inStep.before fun _ => InStep.pure rfl

theorem binder_inStep (annotated : Bool) :
    σ.InStep P 1 m (binder g annotated) (binder g' annotated) := by
  refine InStep.peek fun t _ => ?_
  split
  · exact (pattern_inStep hg)
  · exact (battern_inStep hg .pi)
  · refine InStep.mark_some nofun fun _ marked => InStep.note _ marked ?_
    refine InStep.ite (pattern_inStep hg) (colonFollows_inStep fun _ => ?_)
    exact InStep.ite (InStep.note _ marked binderName_inStep) binderName_inStep
  · exact InStep.ite ((hg.expr .pi).anywhere.before fun _ => InStep.pure rfl)
      (InStep.unexpected _)
  · exact InStep.unexpected _

theorem domain_inStep : σ.InStep P 1 m (domain g) (domain g') := by
  refine InStep.peek fun t _ => ?_
  split
  · exact pattern_inStep hg
  · exact battern_inStep hg .pi
  · exact hg.tuple .curly
  · refine colonFollows_inStep fun _ => InStep.ite (InStep.mark_some nofun fun _ marked => ?_)
      binderName_inStep
    exact InStep.note _ marked binderName_inStep
  · exact InStep.ite ((hg.expr .union).anywhere.before fun _ => InStep.pure rfl)
      (InStep.unexpected _)
  · exact InStep.unexpected _

theorem domain?_inStep : σ.InStep P 0 m (domain? g) (domain? g') := by
  refine InStep.peek fun t _ => ?_
  split
  · exact InStep.ite (domain_inStep hg).loose.some_map (InStep.pure rfl)
  · exact InStep.pure rfl

theorem piDomain_inStep : σ.InStep P 1 m (piDomain g) (piDomain g') :=
  InStep.sees (hg.tuple .curly) (battern_inStep hg .pi)

end Binders

section Declarations

theorem after_inStep {α : Type} [Spanned α] {k : Nat} {marker : Token} {step step' : Parser α}
    (h : σ.InStep Anywhere k m step step') :
    σ.InStep P 0 m (after marker step) (after marker step') :=
  (InStep.accept _).bind fun
    | true => h.loose.some_map
    | false => InStep.pure rfl

/-- The marker is read if it is there. -/
theorem after_inStep_some {α : Type} [Spanned α] {k : Nat} {marker : Token} {step step' : Parser α}
    (h : σ.InStep Anywhere k m step step') :
    σ.InStep (· = some marker) 1 m (after marker step) (after marker step') :=
  (InStep.accept_some _).before fun
    | true => h.loose.some_map
    | false => InStep.pure rfl

theorem curry_inStep : σ.InStep P 1 m curry curry := by
  refine InStep.peek fun t _ => ?_
  split
  · refine InStep.mark_some nofun fun _ marked => (InStep.advance_some _).before fun _ => ?_
    exact InStep.ite (InStep.pure rfl) (InStep.invalid _ marked)
  · exact InStep.unexpected _

theorem curryAndTrip_inStep : σ.InStep P 1 m curryAndTrip curryAndTrip :=
  curry_inStep.before fun _ => (after_inStep identifier_inStep).bind fun _ => InStep.pure rfl

theorem axmOptions_inStep : σ.InStep P 0 m axmOptions axmOptions :=
  identifier?_inStep.bind fun
    | some _ => (after_inStep curryAndTrip_inStep).bind fun _ => InStep.pure rfl
    | none => curryAndTrip_inStep.bind fun _ => InStep.pure rfl

variable (hg : σ.Nests m g g')
include hg

theorem axm_inStep : σ.InStep P 1 (m + 1) (axm g) (axm g') := by
  refine (InStep.expect _).next fun _ => annex_inStep.bind fun _ => ?_
  refine (InStep.expect _).bind fun _ => (hg.expr .bottom).bind fun _ => ?_
  refine (after_inStep axmOptions_inStep).bind fun options => ?_
  cases options with
  | none => exact InStep.pure rfl
  | some options => exact InStep.pure rfl

omit hg in
theorem identifierAhead_inStep {α : Type} [Spanned α] {k : Nat} {f f' : Bool → Parser α}
    (yes : σ.InStep Intact k m (f true) (f' true)) (no : σ.InStep P k m (f false) (f' false)) :
    σ.InStep P k m (cfun.identifierAhead >>= f) (cfun.identifierAhead >>= f') := by
  intro s u hr hs hm
  rw [bind_of_ok (identifierAhead_run s), bind_of_ok (identifierAhead_run u), token?_eq hr]
  cases ahead : s.token?.any isGroupAhead.isIdent with
  | false => exact no s u hr hs hm
  | true =>
      obtain ⟨t, ht, ident⟩ := (Option.any_eq_true ..).1 ahead
      exact yes s u hr ⟨t, ht, by rintro _ rfl; cases ident⟩ hm

theorem cfun_inStep : σ.InStep P 1 (m + 1) (cfun g) (cfun g') := by
  have type_ : ∀ domain domain' : Binder, domain' = respan σ.move domain →
      σ.InStep Anywhere 0 m
        (do expect (.symbol .colon); return DeclForm.cfun domain (← anyExpr g))
        (do expect (.symbol .colon); return DeclForm.cfun domain' (← anyExpr g')) := by
    rintro domain _ rfl
    exact (InStep.expect _).bind fun _ => (hg.expr .bottom).bind fun _ => InStep.pure rfl
  refine (InStep.expect _).next fun _ => InStep.sees ?_ ?_
  · exact (battern_inStep hg .pi).bind fun _ => type_ _ _ rfl
  · have domain : ∀ {Q : Option Token → Prop}, σ.InStep Q 0 m
        (g.expr .pi >>= fun e => do
          let domain ← pure (Binder.type e)
          expect (.symbol .colon)
          return DeclForm.cfun domain (← anyExpr g))
        (g'.expr .pi >>= fun e => do
          let domain ← pure (Binder.type e)
          expect (.symbol .colon)
          return DeclForm.cfun domain (← anyExpr g')) :=
      (hg.expr .pi).anywhere.bind fun _ => type_ _ _ rfl
    refine identifierAhead_inStep (colonFollows_inStep fun _ => InStep.ite ?_ domain)
      (colonFollows_inStep fun _ => domain)
    exact InStep.mark (fun _ h => h) fun _ marked => InStep.note _ marked domain

theorem ccon_inStep : σ.InStep P 1 (m + 1) (ccon g) (ccon g') :=
  (InStep.expect _).next fun _ => (battern_inStep hg .pi).bind fun _ => InStep.pure rfl

theorem let_inStep : σ.InStep P 1 (m + 1) (let_ g) (let_ g') :=
  (InStep.expect _).next fun _ => annexAhead_inStep.bind fun
    | true => annex_inStep.bind fun _ => (InStep.expect _).bind fun _ =>
        (hg.expr .bottom).bind fun _ => InStep.pure rfl
    | false => (binder_inStep hg true).bind fun _ => (InStep.expect _).bind fun _ =>
        (hg.expr .bottom).bind fun _ => InStep.pure rfl

theorem param_inStep : σ.InStep P 1 m (param g) (param g') := by
  refine (InStep.located ?_).before fun ⟨⟨_, _⟩, _⟩ => InStep.pure (Param.respan_mk ..).symm
  refine (domain_inStep hg).before fun domain => InStep.sees ?_ (InStep.pure rfl)
  have filter : σ.InStep (· = some (.symbol .atSign)) 0 m
      (do advance; return (domain, some (← g.expr .union)))
      (do advance; return (respan σ.move domain, some (← g'.expr .union))) :=
    (InStep.advance_some _).loose.bind fun _ => (hg.expr .union).bind fun _ => InStep.pure rfl
  cases domain with
  | type => exact InStep.mark_some nofun fun _ marked => InStep.note _ marked filter
  | name | typed | group | tuple => exact filter

theorem param?_inStep : σ.InStep P 0 m (param? g) (param? g') := by
  refine InStep.peek fun t _ => ?_
  split
  · exact InStep.ite (param_inStep hg).loose.some_map (InStep.pure rfl)
  · exact InStep.pure rfl

theorem lam_inStep : σ.InStep P 1 (m + 1) (lam g) (lam g') := by
  refine (InStep.located ?_).before fun ⟨⟨_, _, _, _, _, _⟩, _⟩ =>
    InStep.pure (Lam.respan_mk ..).symm
  refine InStep.peek fun t _ => ?_
  split
  · exact InStep.unexpected _
  · refine InStep.next (InStep.advance.weaken ?_ (Nat.le_refl _) (Nat.le_refl _)) fun _ => ?_
    · rintro _ rfl rfl
      simp_all
    refine (InStep.accept _).bind fun _ => name_inStep.bind fun _ => ?_
    refine (InStep.many (param?_inStep hg)).bind fun _ => ?_
    refine (after_inStep (hg.expr .bottom)).bind fun _ => ?_
    exact (after_inStep (hg.expr .bottom)).bind fun _ => InStep.pure rfl

theorem recBinding_inStep : σ.InStep P 1 m (recBinding g) (recBinding g') := by
  refine (InStep.located ?_).before fun ⟨⟨_, _, _⟩, _⟩ =>
    InStep.pure (RecBinding.respan_mk ..).symm
  refine name_inStep.before fun _ => (after_inStep (hg.expr .bottom)).bind fun _ => ?_
  exact (InStep.expect _).bind fun _ => (hg.expr .bottom).bind fun _ => InStep.pure rfl

theorem nextRecBinding?_inStep : σ.InStep P 0 m (nextRecBinding? g) (nextRecBinding? g') :=
  InStep.peekAt fun _ => InStep.ite (InStep.pure rfl) (after_inStep (recBinding_inStep hg))

theorem rec_inStep : σ.InStep P 1 (m + 1) (rec_ g) (rec_ g') := by
  refine (InStep.expect _).next fun _ =>
    ((recBinding_inStep hg).many1 (nextRecBinding?_inStep hg)).bind fun _ => ?_
  refine (after_inStep (lam_inStep hg).lower).bind fun _ => ?_
  exact InStep.pure (DeclForm.respan_rec ..).symm

theorem rule_inStep : σ.InStep P 1 (m + 1) (rule g) (rule g') := by
  have body : ∀ kind : RuleKind, σ.InStep Anywhere 0 m
      (do
        let binder ← binder g false
        expect (.symbol .colon)
        let lhs ← anyExpr g
        let guard ← after (.keyword .when_) (anyExpr g)
        expect (.symbol .fatArrow)
        return DeclForm.rule kind binder lhs guard (← anyExpr g))
      (do
        let binder ← binder g' false
        expect (.symbol .colon)
        let lhs ← anyExpr g'
        let guard ← after (.keyword .when_) (anyExpr g')
        expect (.symbol .fatArrow)
        return DeclForm.rule kind binder lhs guard (← anyExpr g')) := by
    intro kind
    refine (binder_inStep hg false).bind fun _ => (InStep.expect _).bind fun _ => ?_
    refine (hg.expr .bottom).bind fun _ => (after_inStep (hg.expr .bottom)).bind fun _ => ?_
    refine (InStep.expect _).bind fun _ => (hg.expr .bottom).bind fun _ => ?_
    exact InStep.pure (DeclForm.respan_rule ..).symm
  refine InStep.accept_next ((InStep.pure rfl).bind fun kind => body kind) ?_
  exact (InStep.expect _).next fun _ => (InStep.pure rfl).bind fun kind => body kind

theorem declForm_inStep : σ.InStep P 1 (m + 1) (declForm g) (declForm g') := by
  refine InStep.peek fun t _ => ?_
  split
  · exact axm_inStep hg
  · exact cfun_inStep hg
  · exact ccon_inStep hg
  · exact let_inStep hg
  · exact rec_inStep hg
  · exact (lam_inStep hg).map fun _ => rfl
  · exact (lam_inStep hg).map fun _ => rfl
  · exact (lam_inStep hg).map fun _ => rfl
  · exact rule_inStep hg
  · exact rule_inStep hg
  · exact InStep.unexpected _

end Declarations

section Recovery

theorem rel_skip {inWhere : Bool} {s u : Reading} (hr : σ.rel s u) :
    σ.rel (s.skip inWhere) (u.skip inWhere) ∧ (s.skip inWhere).rest.length ≤ s.rest.length := by
  generalize hn : s.rest.length = n
  induction n generalizing s u with
  | zero =>
      have hs : s.token? = none := Reading.token?_eq_none.2 (List.eq_nil_of_length_eq_zero hn)
      rw [Reading.skip_of_none hs, Reading.skip_of_none ((token?_eq hr).trans hs)]
      exact ⟨hr, by omega⟩
  | succ n ih =>
      cases hs : s.token? with
      | none => simp [Reading.token?_eq_none.1 hs] at hn
      | some t =>
          have length := Reading.length_advance hs
          rw [Reading.skip_of_some hs, Reading.skip_of_some ((token?_eq hr).trans hs)]
          split
          · exact ⟨σ.rel_advance hr, by omega⟩
          · split
            · exact ⟨hr, by omega⟩
            · obtain ⟨rel, le⟩ := ih (σ.rel_advance hr) (by omega)
              exact ⟨rel, by omega⟩

theorem rel_recover {inWhere : Bool} {s u s₁ u₁ : Reading} (hr : σ.rel s u) (hr₁ : σ.rel s₁ u₁)
    (hs : s.token? ≠ none) (le : s₁.rest.length ≤ s.rest.length) :
    (u₁.recover inWhere u).1 = σ.move (s₁.recover inWhere s).1 ∧
      σ.rel (s₁.recover inWhere s).2 (u₁.recover inWhere u).2 ∧
      (s₁.recover inWhere s).2.rest.length + 1 ≤ s.rest.length := by
  have moved : σ.rel (if s₁.rest.length = s.rest.length then s₁.advance else s₁)
      (if u₁.rest.length = u.rest.length then u₁.advance else u₁) ∧
      (if s₁.rest.length = s.rest.length then s₁.advance else s₁).rest.length + 1 ≤
        s.rest.length := by
    rw [length_eq hr, length_eq hr₁]
    split
    · next h =>
        cases hs₁ : s₁.token? with
        | none =>
            rw [Ne, Reading.token?_eq_none, ← List.length_eq_zero_iff] at hs
            simp only [Reading.token?_eq_none.1 hs₁, List.length_nil] at h
            omega
        | some t =>
            have length := Reading.length_advance hs₁
            exact ⟨σ.rel_advance hr₁, by omega⟩
    · exact ⟨hr₁, by omega⟩
  obtain ⟨rel, le⟩ := @rel_skip _ inWhere _ _ moved.1
  rw [Reading.recover_eq, Reading.recover_eq, σ.span_eq hr]
  exact ⟨σ.spanFrom_eq rel _, rel, by dsimp only; omega⟩

theorem recovering_inStep {α : Type} [Spanned α] {inWhere : Bool} {p q : Parser α}
    (h : σ.InStep P 1 m p q) (hP : ∀ t, P t → t ≠ none) :
    σ.InStep P 1 m (recovering inWhere p) (recovering inWhere q) := by
  intro s u hr hs hm
  have agree := h s u hr hs hm
  cases hps : p s with
  | ok a s₁ =>
      cases hqu : q u with
      | error => simp [hps, hqu, Agree] at agree
      | ok b u₁ =>
          rw [hps, hqu] at agree
          obtain ⟨rfl, hr₁, hk⟩ := agree
          rw [recovering_ok hps, recovering_ok hqu]
          exact ⟨rfl, hr₁, hk⟩
  | error e s₁ =>
      cases hqu : q u with
      | ok => simp [hps, hqu, Agree] at agree
      | error e' u₁ =>
          rw [hps, hqu] at agree
          obtain ⟨rfl, hr₁, hk, blames⟩ := agree
          rw [recovering_error hps, recovering_error hqu]
          have length : (s₁.report e).rest.length ≤ s.rest.length := by
            simp only [Reading.report]
            split <;> exact hk
          obtain ⟨place, rel, le⟩ :=
            @rel_recover _ inWhere _ _ _ _ hr (σ.rel_report hr₁ e blames) (hP _ hs) length
          exact ⟨congrArg Except.error place, rel, le⟩

theorem declarationOrError_inStep {inWhere : Bool} {p q : Parser Decl}
    (h : σ.InStep P 1 m p q) (hP : ∀ t, P t → t ≠ none) :
    σ.InStep P 1 m (declarationOrError inWhere p) (declarationOrError inWhere q) :=
  (recovering_inStep h hP).before fun
    | .ok _ => InStep.pure rfl
    | .error place => InStep.pure (Decl.respan_error σ.move place).symm

variable (hg : σ.Nests m g g')
include hg

theorem declaration_inStep : σ.InStep P 1 (m + 1) (declaration g) (declaration g') := by
  intro s u hr hs hm
  unfold declaration
  rw [get_bind, get_bind, doc?_eq hr]
  refine InStep.before (declForm_inStep hg).located (fun _ => ?_) s u hr hs hm
  exact InStep.pure rfl

theorem whereBody_inStep : σ.InStep P 1 (m + 1) (whereBody g) (whereBody g') := by
  refine InStep.bind (InStep.many ?_).anywhere fun parts => (InStep.expect _).before fun _ =>
    InStep.pure ?_
  · refine (InStep.accept _).bind fun
      | true => InStep.pure rfl
      | false => InStep.peek fun t _ => ?_
    split
    · exact InStep.pure rfl
    · exact InStep.pure rfl
    · refine (declarationOrError_inStep (declaration_inStep hg) ?_).loose.bind fun _ =>
        InStep.pure rfl
      rintro _ rfl
      simp
  · simp [respan, List.filterMap_map, List.map_filterMap]

end Recovery

section Operands

variable (hg : σ.Nests m g g')
include hg

theorem literal_inStep (least : Prec) (value : Literal) :
    σ.InStep (· = some (.literal value)) 1 (m + 1) (literal g least value)
      (literal g' least value) := by
  refine InStep.mark_some nofun fun place marked => (InStep.advance_some _).next fun _ => ?_
  have ty : σ.InStep Anywhere 0 m (do return Form.ascribed value place (← anyExpr g))
      (do return .ascribed value (σ.move place) (← anyExpr g')) :=
    (hg.expr .bottom).bind fun _ => InStep.pure rfl
  refine (InStep.accept _).bind fun _ => InStep.ite (InStep.ite ?_ ty) (InStep.pure rfl)
  exact InStep.note _ marked ty

omit hg in
theorem annexOperand_inStep (path : AnnexPath) :
    σ.InStep (· = some (.annex path)) 1 m (annexOperand path) (annexOperand path) := by
  refine (InStep.advance_some _).before fun _ => InStep.sees ?_ (InStep.pure rfl)
  exact InStep.mark_some nofun fun _ marked => InStep.note _ marked (InStep.pure rfl)

theorem blockDeclaration?_inStep :
    σ.InStep P 0 (m + 1) (blockDeclaration? g) (blockDeclaration? g') := by
  refine InStep.peek fun t _ => ?_
  split
  · refine InStep.ite ?_ (InStep.pure rfl)
    refine (declaration_inStep hg).loose.bind fun _ => ?_
    exact (InStep.accept_discard _).bind fun _ => InStep.pure rfl
  · exact InStep.pure rfl

theorem block_inStep {t : Token} (ht : t.startsDeclaration = true) :
    σ.InStep (· = some t) 1 (m + 1) (block g) (block g') := by
  have first : σ.InStep (· = some t) 1 (m + 1) (blockDeclaration? g) (blockDeclaration? g') := by
    rintro s u hr hs hm
    unfold blockDeclaration?
    rw [peek_bind, peek_bind, token?_eq hr, hs]
    simp only [ht, if_true]
    refine InStep.before (declaration_inStep hg) (fun _ => ?_) s u hr (P := Anywhere) trivial hm
    exact (InStep.accept_discard _).bind fun _ => InStep.pure rfl
  refine InStep.next (InStep.many_before first (blockDeclaration?_inStep hg)) fun _ => ?_
  exact (hg.expr .bottom).bind fun _ => InStep.pure (Form.respan_block ..).symm

theorem bracketed_inStep : 
    σ.InStep (· = some (.symbol .leftBracket)) 1 (m + 1) (bracketed g) (bracketed g') := by
  refine InStep.next (tuple_inStep hg .square) fun _ => ?_
  refine (after_inStep (hg.expr .arrow)).bind fun
    | some _ => InStep.pure (Form.respan_pi _ _ _ (some _)).symm
    | none => (after_inStep name_inStep).bind fun _ => InStep.pure rfl

theorem implicitPi_inStep : 
    σ.InStep (· = some (.symbol .leftBrace)) 1 (m + 1) (implicitPi g) (implicitPi g') := by
  refine InStep.next (tuple_inStep hg .curly) fun _ => (InStep.expect _).bind fun _ => ?_
  exact (hg.expr .arrow).bind fun _ => InStep.pure (Form.respan_pi _ _ _ (some _)).symm

theorem cnType_inStep : σ.InStep P 1 (m + 1) (cnType g) (cnType g') :=
  (InStep.expect _).next fun _ => (piDomain_inStep hg).bind fun _ => InStep.pure rfl

theorem fnType_inStep : σ.InStep P 1 (m + 1) (fnType g) (fnType g') := by
  refine (InStep.expect _).next fun _ => (piDomain_inStep hg).bind fun _ => ?_
  exact (after_inStep (hg.expr .arrow)).bind fun _ => InStep.pure (Form.respan_pi ..).symm

theorem lm_inStep : σ.InStep P 1 (m + 1) (lm g) (lm g') := by
  refine (InStep.expect _).next fun _ =>
    ((domain_inStep hg).many1 (domain?_inStep hg)).bind fun _ => ?_
  refine (after_inStep (hg.expr .bottom)).bind fun _ => (InStep.expect _).bind fun _ => ?_
  exact (hg.expr .bottom).bind fun _ => InStep.pure (Form.respan_lambda ..).symm

theorem pattern?_inStep : σ.InStep P 0 m (pattern? g) (pattern? g') := by
  refine InStep.peek fun t _ => ?_
  split
  · exact (pattern_inStep hg).loose.some_map
  · exact (pattern_inStep hg).loose.some_map
  · exact InStep.pure rfl

theorem cn_inStep : σ.InStep P 1 (m + 1) (cn g) (cn g') := by
  refine (InStep.expect _).next fun _ =>
    ((pattern_inStep hg).many1 (pattern?_inStep hg)).bind fun _ => ?_
  refine (InStep.expect _).bind fun _ => ?_
  exact (hg.expr .bottom).bind fun _ => InStep.pure (Form.respan_lambda _ _ _ none _).symm

theorem insert_inStep : σ.InStep P 1 (m + 1) (insert g) (insert g') := by
  refine (InStep.expect _).next fun _ => (InStep.expect _).bind fun _ => ?_
  refine (hg.expr .bottom).bind fun _ => (InStep.expect _).bind fun _ => ?_
  refine (hg.expr .bottom).bind fun _ => (InStep.expect _).bind fun _ => ?_
  refine (hg.expr .bottom).bind fun _ => (InStep.expect _).bind fun _ => InStep.pure rfl

theorem ret_inStep : σ.InStep P 1 (m + 1) (ret g) (ret g') := by
  refine (InStep.expect _).next fun _ => (binder_inStep hg true).bind fun _ => ?_
  refine (InStep.expect _).bind fun _ => (hg.expr .bottom).bind fun _ => ?_
  refine (InStep.expect _).bind fun _ => (hg.expr .bottom).bind fun _ => ?_
  refine (InStep.expect _).bind fun _ => (hg.expr .bottom).bind fun _ => InStep.pure rfl

theorem uniq_inStep : σ.InStep P 1 (m + 1) (uniq g) (uniq g') :=
  (InStep.expect _).next fun _ => (hg.expr .bottom).bind fun _ =>
    (InStep.expect _).bind fun _ => InStep.pure rfl

theorem array_inStep : σ.InStep P 1 (m + 1) (array g) (array g') := by
  refine (InStep.expect _).next fun _ => (hg.expr .bottom).bind fun _ => ?_
  refine (after_inStep (InStep.commaList (hg.expr .bottom))).bind fun others => ?_
  refine (InStep.expect _).bind fun _ => (hg.expr .bottom).bind fun _ => ?_
  refine (InStep.expect _).bind fun _ => InStep.pure ?_
  cases others <;> rw [Form.respan_array] <;> rfl

theorem pack_inStep : σ.InStep P 1 (m + 1) (pack g) (pack g') := by
  refine (InStep.expect _).next fun _ => (hg.expr .bottom).bind fun _ => ?_
  refine (InStep.expect _).bind fun _ => (hg.expr .bottom).bind fun _ => ?_
  exact (InStep.expect _).bind fun _ => InStep.pure rfl

theorem parenthesized_inStep : σ.InStep P 1 (m + 1) (parenthesized g) (parenthesized g') := by
  refine (InStep.expect _).next fun _ => (InStep.commaList (hg.expr .bottom)).bind fun _ => ?_
  exact (InStep.expect _).bind fun _ => InStep.pure (Form.respan_tuple ..).symm

theorem arm_inStep : σ.InStep P 1 m (arm g) (arm g') := by
  refine (InStep.located ?_).before fun _ => InStep.pure rfl
  refine (binder_inStep hg true).before fun _ => (InStep.expect _).bind fun _ => ?_
  exact (hg.expr .bottom).bind fun _ => InStep.pure rfl

theorem firstArm?_inStep : σ.InStep P 0 m (firstArm? g) (firstArm? g') := by
  refine InStep.peek fun t _ => ?_
  split
  · exact InStep.ite (arm_inStep hg).loose.some_map (InStep.pure rfl)
  · exact InStep.pure rfl

theorem match_inStep : σ.InStep P 1 (m + 1) (match_ g) (match_ g') := by
  refine (InStep.expect _).next fun _ => (hg.expr .bottom).bind fun _ => ?_
  refine (InStep.expect _).bind fun _ => (firstArm?_inStep hg).bind fun first => ?_
  refine (InStep.many (after_inStep (arm_inStep hg))).bind fun _ => InStep.pure ?_
  cases first <;> rw [Form.respan_match] <;> rfl

theorem operandForm_inStep (least : Prec) :
    σ.InStep P 1 (m + 1) (operandForm g least) (operandForm g' least) := by
  refine InStep.peek fun t _ => ?_
  split
  · exact (InStep.advance_some _).before fun _ => InStep.pure rfl
  · exact (InStep.advance_some _).before fun _ => InStep.pure rfl
  · exact annexOperand_inStep _
  · exact literal_inStep hg least _
  · exact bracketed_inStep hg
  · exact implicitPi_inStep hg
  · exact cnType_inStep hg
  · exact fnType_inStep hg
  · exact lm_inStep hg
  · exact cn_inStep hg
  · exact insert_inStep hg
  · exact ret_inStep hg
  · exact uniq_inStep hg
  · exact array_inStep hg
  · exact pack_inStep hg
  · exact parenthesized_inStep hg
  · exact match_inStep hg
  · exact (InStep.advance_some _).before fun _ => InStep.pure rfl
  · exact barePercent_inStep
  · split
    · next h => exact block_inStep hg h
    · exact InStep.unexpected _
  · exact InStep.unexpected _

theorem operand_inStep (least : Prec) :
    σ.InStep P 1 (m + 1) (operand g least) (operand g' least) := by
  refine (operandForm_inStep hg least).located.before fun _ => ?_
  exact InStep.pure rfl

end Operands

section Expressions

variable (hg : σ.Nests m g g')
include hg

theorem infixForm_inStep (lhs : Expr) (op : Operator) :
    σ.InStep (fun t => t.bind Operator.ofToken? = some op) 1 m (infixForm g lhs op)
      (infixForm g' (respan σ.move lhs) op) := by
  have advance : σ.InStep (fun t => t.bind Operator.ofToken? = some op) 1 m advance advance :=
    InStep.advance.weaken (by rintro _ h rfl; simp at h) (Nat.le_refl _) (Nat.le_refl _)
  cases op with
  | where_ =>
      refine InStep.before advance fun _ => (whereBody_inStep hg).lower.loose.bind fun _ => ?_
      exact InStep.pure (Form.respan_where ..).symm
  | arrow | injection | explicitApplication | extraction =>
      refine InStep.before advance fun _ => (hg.expr _).loose.bind fun _ => ?_
      exact InStep.pure rfl
  | application =>
      exact (hg.expr _).anywhere.before fun _ => InStep.pure rfl
  | union =>
      have others : σ.InStep (· = some (.symbol .union)) 1 m _ _ :=
        after_inStep_some (hg.expr Operator.union.rightMin)
      refine InStep.before (InStep.many_before (others.weaken ?_ ?_ ?_) ?_) fun _ => ?_
      · intro t ht
        cases t with
        | none => simp at ht
        | some t => exact congrArg some (Operator.eq_of_ofToken?_union ht)
      · exact Nat.le_refl _
      · exact Nat.le_refl _
      · exact after_inStep (hg.expr _)
      · exact InStep.pure (Form.respan_union _ (_ :: _)).symm

theorem infixExpr_inStep (lhs : Expr) (op : Operator) :
    σ.InStep (fun t => t.bind Operator.ofToken? = some op) 1 m (infixExpr g lhs op)
      (infixExpr g' (respan σ.move lhs) op) := by
  refine (infixForm_inStep hg lhs op).before fun form => ?_
  intro s u hr _ _
  rw [get_bind, get_bind]
  rw [Expr.span_respan, σ.spanFrom_eq hr]
  exact ⟨rfl, hr, Nat.le_refl _⟩

theorem extend?_inStep (least : Prec) (lhs : Expr) :
    σ.InStep P 0 m (extend? g least lhs) (extend? g' least (respan σ.move lhs)) := by
  intro s u hr _ hm
  have rel : σ.rel s.noted u.noted := by
    simp only [Reading.noted, token?_eq hr, σ.span_eq hr]
    split
    · next declares =>
        obtain ⟨t, ht, starts⟩ := (Option.any_eq_true ..).1 declares
        exact σ.rel_note hr _ _ (σ.marks_span hr ht (by rintro _ rfl; cases starts))
    · exact hr
  have op_eq : u.operator? = s.operator? := by simp only [Reading.operator?, token?_eq hr]
  unfold extend?
  rw [bind_of_ok operator?_run, bind_of_ok operator?_run, op_eq]
  cases hop : s.operator? with
  | none => exact ⟨rfl, rel, Nat.le_of_eq (congrArg List.length s.rest_noted)⟩
  | some op =>
      have ahead : s.noted.token?.bind Operator.ofToken? = some op := by
        rw [Reading.token?, s.rest_noted]
        exact Reading.ofToken?_of_operator? hop
      have length := congrArg List.length s.rest_noted
      rw [← length] at hm ⊢
      exact InStep.ite (InStep.pure rfl) ((infixExpr_inStep hg lhs op).loose.some_map) _ _ rel
        ahead hm

theorem expr_inStep (least : Prec) : σ.InStep P 1 (m + 1) (expr g least) (expr g' least) :=
  (operand_inStep hg least).next fun lhs => InStep.grow (extend?_inStep hg least) lhs

end Expressions

/-- Where what is nested agrees, so does what is nested one deeper. -/
theorem nests_succ (hg : σ.Nests m g g') : σ.Nests (m + 1) g.deeper g'.deeper :=
  ⟨expr_inStep hg, tuple_inStep hg⟩

/-- Forms nested deep enough agree, whatever the depths are. How the forms at the bottom are
    read does not matter, as more tokens are read before one of them than there are. -/
theorem nests_deeper : ∀ {m n n' : Nat}, m ≤ n → m ≤ n' →
    σ.Nests m (Nested.deeper^[n] g) (Nested.deeper^[n'] g')
  | 0, _, _, _, _ => ⟨fun _ _ _ _ _ hm => absurd hm (Nat.not_lt_zero _),
      fun _ _ _ _ _ hm => absurd hm (Nat.not_lt_zero _)⟩
  | _ + 1, n + 1, n' + 1, hn, hn' => by
      rw [Function.iterate_succ_apply', Function.iterate_succ_apply']
      exact nests_succ (nests_deeper (Nat.le_of_succ_le_succ hn) (Nat.le_of_succ_le_succ hn'))

theorem nests_upTo {n n' : Nat} (hn : m ≤ n) (hn' : m ≤ n') :
    σ.Nests m (Nested.upTo n) (Nested.upTo n') := by
  rw [Nested.upTo_eq, Nested.upTo_eq]
  exact nests_deeper hn hn'

section Files

theorem dependencyAhead_inStep {α : Type} [Spanned α] {k : Nat} {f f' : Bool → Parser α}
    (yes : σ.InStep Intact k m (f true) (f' true)) (no : σ.InStep P k m (f false) (f' false)) :
    σ.InStep P k m (dependencyAhead >>= f) (dependencyAhead >>= f') := by
  intro s u hr hs hm
  rw [bind_of_ok dependencyAhead_run, bind_of_ok dependencyAhead_run, token?_eq hr]
  cases ahead : s.token?.any startsDependency with
  | false => exact no s u hr hs hm
  | true =>
      obtain ⟨t, ht, starts⟩ := (Option.any_eq_true ..).1 ahead
      exact yes s u hr ⟨t, ht, by rintro _ rfl; cases starts⟩ hm

theorem dependency_inStep : σ.InStep P 1 (m + 1) dependency dependency := by
  have name : ∀ kind : DependencyKind, σ.InStep Anywhere 0 m
      (do
        let name ← identifier
        expect (.symbol .semicolon)
        return (kind, name))
      (do
        let name ← identifier
        expect (.symbol .semicolon)
        return (kind, name)) := fun kind =>
    identifier_inStep.bind fun _ => (InStep.expect _).bind fun _ => InStep.pure rfl
  refine (InStep.located ?_).before fun _ => InStep.pure rfl
  refine InStep.accept_next ((InStep.pure rfl).bind fun kind => name kind) ?_
  exact (InStep.expect _).next fun _ => (InStep.pure rfl).bind fun kind => name kind

omit σ in
theorem respan_toOption (f : Change) (parts : List (Except Span Dependency)) :
    respan f (parts.filterMap Except.toOption) = (respan f parts).filterMap Except.toOption := by
  simp only [respan, List.filterMap_map, List.map_filterMap]
  congr 1
  funext part
  cases part <;> rfl

theorem dependencies_inStep :
    σ.InStep Anywhere 0 (m + 1) dependencies dependencies := by
  refine (InStep.many ?_).bind fun parts => InStep.pure (respan_toOption σ.move parts).symm
  refine dependencyAhead_inStep ?_ (InStep.pure rfl)
  refine (recovering_inStep dependency_inStep ?_).loose.some_map
  rintro _ ⟨t, ht, -⟩ rfl
  cases ht

variable (hg : σ.Nests m g g')
include hg

theorem fileDeclaration_inStep :
    σ.InStep P 1 (m + 1) (fileDeclaration g) (fileDeclaration g') := by
  have read : σ.InStep Anywhere 1 (m + 1)
      (do
        let d ← declaration g
        discard (accept (.symbol .semicolon))
        return d)
      (do
        let d ← declaration g'
        discard (accept (.symbol .semicolon))
        return d) :=
    (declaration_inStep hg).before fun _ =>
      (InStep.accept_discard _).bind fun _ => InStep.pure rfl
  refine dependencyAhead_inStep (InStep.mark (fun _ h => h) fun _ marked => ?_) read.anywhere
  exact (InStep.invalid _ marked).before fun _ => read.loose

theorem declarations_inStep :
    σ.InStep Anywhere 0 (m + 1) (declarations g) (declarations g') := by
  refine InStep.many (InStep.peek fun t _ => ?_)
  split
  · exact InStep.pure rfl
  · refine (declarationOrError_inStep (fileDeclaration_inStep hg) ?_).loose.some_map
    rintro _ rfl
    simp

theorem file_inStep : σ.InStep Anywhere 0 (m + 1) (file g) (file g') := by
  refine (InStep.located ?_).before fun _ => InStep.pure rfl
  exact dependencies_inStep.bind fun _ => (declarations_inStep hg).bind fun _ => InStep.pure rfl

end Files

end Grammar

end Mim
