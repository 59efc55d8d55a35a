import Mim.Proofs.Choices.Rows

/-! # A clean run tells of the choices in a declaration -/

namespace Mim

open Grammar
open Reading (Told ToldFresh ToldEnd)
open TieBreak (misplaced)

namespace Grammar

variable {items : List Item} {l : List TieBreak} {s s' : Reading} {least : Prec} {g : Nested}

theorem curry_tells : Tells (Told items l) curry fun _ => ToldFresh items l := by
  refine Tells.peek fun next => ?_
  split
  · refine Tells.see (fun _ => rfl) fun _ => (Tells.advance fun s hs => hs.1.1.advance).bind fun _ => ?_
    exact Tells.ite (Tells.pure fun _ => id) Tells.invalid
  · exact Tells.unexpected

/-- What a comma introduces tells of nothing. -/
theorem afterComma_tells {α : Type} {p : Parser α}
    (hp : Tells (Told items l) p fun _ => ToldFresh items l) :
    Tells (ToldFresh items l) (after (.symbol .comma) p) fun _ => ToldFresh items l :=
  Tells.after (fun _ hs _ => hs.advance) hp.fresh (fun _ _ => id) fun _ hs _ => hs

theorem curryAndTrip_tells : Tells (Told items l) curryAndTrip fun _ => ToldFresh items l :=
  curry_tells.bind fun _ =>
    (afterComma_tells (ident_tells.post fun _ _ hs => hs.toToldFresh)).last fun _ _ => id

theorem axmOptions_tells : Tells (Told items l) axmOptions fun _ => ToldFresh items l := by
  refine identifier?_tells.bind fun normalizer => ?_
  cases normalizer with
  | none => exact curryAndTrip_tells.last fun _ _ => id
  | some _ => exact (afterComma_tells curryAndTrip_tells).last fun _ _ => id

variable (hg : g.Telling items)
include hg

/-- What a marker introduces is an expression. -/
theorem afterExpr_tells {marker : Token} (weak : least ≤ .application) :
    Tells (ToldEnd items l) (after marker (g.expr least)) fun e =>
      ToldEnd items (l ++ Expr.choices? least e) :=
  Tells.after (fun _ hs _ => hs.advance) (weakExpr_tells hg _ weak).fresh (fun _ _ => And.left)
    fun s hs _ => by simpa [Expr.choices?] using hs

theorem afterAny_tells {marker : Token} : Tells (ToldFresh items l) (after marker (anyExpr g))
    fun e => ToldFresh items (l ++ Expr.choices? .bottom e) :=
  Tells.after (fun _ hs _ => hs.advance) (anyExpr_tells hg).fresh (fun _ _ hs => hs.toToldFresh)
    fun s hs _ => by simpa [Expr.choices?] using hs

theorem axm_tells : Tells (Told items l) (axm g) fun form => ToldFresh items (l ++ form.choices) := by
  refine expect_tells.bind fun _ => annex_tells.fresh.bind fun _ => expect_tells.behind.bind fun _ => ?_
  refine (anyExpr_tells hg).fresh.bind fun ty => ?_
  refine Tells.bind ((afterComma_tells axmOptions_tells).pre fun _ hs => hs.toToldFresh) fun options => ?_
  cases options with
  | none => exact Tells.pure fun _ => id
  | some _ => exact Tells.pure fun _ => id

/-- An expression that is only a name is that name, and what comes next was second. -/
theorem name_alone {e : Expr} {name : String} (run : g.expr least s = .ok e s')
    (form : e.form = .ident name) (clean : Clean s s') : s.token? = some (.ident name) ∧
      (s'.token? = some (.symbol .colon) → s.tokenAt? 1 = some (.symbol .colon)) := by
  obtain ⟨cs, rest, -, written⟩ := hg.spelled.expr least s e s' trivial run
  obtain ⟨l, hl, -, ⟨mirrors, ne, -⟩, -⟩ := written clean
  obtain ⟨_, place⟩ := e
  subst form
  obtain rfl : [Token.ident name] = l := hl
  have tokens : s.tokens = cs.map Item.token ++ s'.tokens := by
    rw [Reading.tokens, rest, List.map_append]
  constructor
  · rw [← Reading.head?_tokens, tokens, Token.head?_append ne, mirrors.head]
    rfl
  · intro next
    rw [← Reading.getElem?_tokens, tokens]
    refine (mirrors.second ne Iff.rfl).2 ?_
    rw [← Reading.head?_tokens] at next
    simpa [Token.undoc, Token.isDoc, List.head?_eq_getElem?] using next

theorem cfun_tells : Tells (Told items l) (cfun g) fun form => ToldFresh items (l ++ form.choices) := by
  have codomain (domain : Binder) : Tells (fun s =>
      ToldFresh items (l ++ domain.asType ++ domain.choices .pi) s) (do
        return DeclForm.cfun domain (← anyExpr g)) fun form => ToldFresh items (l ++ form.choices) :=
    (anyExpr_tells hg).fresh.last fun ty s hs => by simpa [DeclForm.choices] using hs.toToldFresh
  refine expect_tells.bind fun _ => Tells.sees ?_ ?_
  · refine Tells.bind (((battern_tells hg .pi (by decide)).pre fun s hs => hs.1.toTold).besides
      (R := fun b _ => b.isTuple) fun run _ hs => battern_bracket hg run hs.2) fun domain => ?_
    refine Tells.bind (Tells.expect fun s hs _ => ?_) fun _ => codomain domain
    obtain ⟨⟨told, -⟩, tuple⟩ := hs
    rw [domain.asType_of_isTuple tuple, List.append_nil]
    exact told.advance
  · have type_ (noted : List TieBreak) {P : Reading → Prop} (hP : ∀ s, P s → Told items (l ++ noted) s)
        (h : ∀ {s ty s'}, g.expr .pi s = .ok ty s' → s'.IsClean → P s →
          s'.token? = some (.symbol .colon) → (Binder.type ty).asType = noted) :
        Tells P (g.expr .pi >>= fun ty => do
          let domain ← pure (Binder.type ty)
          expect (.symbol .colon)
          return DeclForm.cfun domain (← anyExpr g)) fun form => ToldFresh items (l ++ form.choices) := by
      refine Tells.bind (((weakExpr_tells hg _ (by decide)).pre hP).besides h) fun ty => ?_
      change Tells _ (expect (.symbol .colon) >>= fun _ =>
        anyExpr g >>= fun e => Pure.pure (DeclForm.cfun (.type ty) e)) _
      refine Tells.bind (Tells.expect fun s hs next => ?_) fun _ => codomain (.type ty)
      rw [hs.2 next]
      exact hs.1.1.advance
    refine Tells.see identifierAhead_run fun name => Tells.see
      (v := fun s => s.tokenAt? 1 == some (.symbol .colon)) (fun _ => rfl) fun colon => ?_
    split
    · next both =>
        obtain ⟨rfl, rfl⟩ := Bool.and_eq_true_iff.1 both
        refine Tells.pre (noteHere_tells (N := fun is =>
          (is.head?.map Item.token).any isGroupAhead.isIdent ∧
            is[1]?.map Item.token = some (.symbol .colon)) rfl (type_ [.typeToEnclosingForm] (fun _ => And.left) ?_)) ?_
        · rintro s ⟨form, place⟩ s' run - ⟨-, ident, colon⟩ -
          obtain ⟨t, next, ident⟩ := (Option.any_eq_true ..).1 ident
          cases t with
          | ident name =>
              obtain rfl : form = .ident name := hg.name run next colon
              rfl
          | _ => cases ident
        · rintro s ⟨⟨⟨fresh, -⟩, ident⟩, colon⟩
          refine ⟨⟨fresh, ?_⟩, ident, beq_iff_eq.1 colon⟩
          obtain ⟨t, next, -⟩ := (Option.any_eq_true ..).1 ident
          simp [next]
    · next apart =>
        refine type_ [] (fun s hs => ?_) ?_
        · simpa using hs.1.1.1.toTold
        · rintro s ⟨form, place⟩ s' run clean ⟨⟨⟨fresh, -⟩, ident⟩, colon⟩ next
          cases form with
          | ident name =>
              have ⟨first, second⟩ := name_alone hg run rfl ⟨fresh.clean_rest, clean⟩
              rw [first] at ident
              rw [second next] at colon
              exact absurd (by rw [← ident, ← colon]; rfl) apart
          | _ => rfl

theorem ccon_tells : Tells (Told items l) (ccon g) fun form => ToldFresh items (l ++ form.choices) :=
  expect_tells.bind fun _ => (battern_tells hg _ (by decide)).fresh.last fun _ _ hs => hs.1.toToldFresh

omit hg in
/-- Behind what is bound, a sign that is no colon ends it. -/
theorem bound_tells {b : Binder} {t : Token} (colon : t ≠ .symbol .colon)
    (paren : t ≠ .symbol .leftParen) :
    Tells (fun s => ToldEnd items (l ++ b.asPattern ++ b.atEnd s.token? ++ b.choices .pi) s) (expect t)
      fun _ => ToldFresh items (l ++ b.asPattern ++ b.choices .pi) := by
  refine Tells.expect fun s hs next => ?_
  rw [next, b.atEnd_eq_nil (by simpa using colon) (by simpa using paren), List.append_nil] at hs
  exact hs.advance

theorem let_tells : Tells (Told items l) (let_ g) fun form => ToldFresh items (l ++ form.choices) := by
  refine expect_tells.bind fun _ => Tells.see annexAhead_run fun annex => Tells.ite ?_ ?_
  · refine Tells.bind (annex_tells.pre fun _ hs => hs.1.toTold) fun _ => ?_
    refine expect_tells.behind.bind fun _ => ?_
    exact (anyExpr_tells hg).fresh.last fun _ _ hs => hs.toToldFresh
  · refine Tells.bind ((binder_tells hg true).pre fun _ => And.left) fun b => ?_
    refine (bound_tells (t := .symbol .assign) nofun nofun).bind fun _ => ?_
    refine (anyExpr_tells hg).fresh.last fun e s hs => ?_
    simpa [DeclForm.choices] using hs.toToldFresh

theorem lam_tells : Tells (Told items l) (lam g) fun lam => ToldFresh items (l ++ lam.choices) := by
  refine Tells.node (R := fun p => ToldFresh items (l ++ (Lam.mk p.1 p.2.1 p.2.2.1 p.2.2.2.1
    p.2.2.2.2.1 p.2.2.2.2.2 .zero).choices)) (Tells.peek fun next => ?_) fun p place s hs => hs
  split
  · exact Tells.unexpected
  · have parts (kind : LamKind) (isExternal : Bool) : Tells (ToldFresh items l) (do
        let name ← name
        let params ← many (param? g)
        let codomain ← after (.symbol .colon) (anyExpr g)
        let body ← after (.symbol .assign) (anyExpr g)
        return (kind, isExternal, name, params, codomain, body)) fun p =>
          ToldFresh items (l ++ (Lam.mk p.1 p.2.1 p.2.2.1 p.2.2.2.1 p.2.2.2.2.1 p.2.2.2.2.2
            .zero).choices) := by
      refine name_tells.fresh.bind fun name => ?_
      refine Tells.bind ((Row.many_tells (param?_advances hg.groups.inStep) (param?_goes hg)).pre
        fun _ hs => hs.toToldFresh) fun params => ?_
      refine (codomain_tells hg (c := fun colon => l ++ (misplaced (Param.next colon params) ++
        Param.choicesEach colon params))).bind fun codomain => ?_
      refine (afterAny_tells hg).last fun body s hs => ?_
      simpa [Lam.choices] using hs
    refine (Tells.advance fun s hs => hs.1.advance).bind fun _ => ?_
    refine Tells.accept (fun s hs _ => hs.advance) (parts _ _) ((parts _ _).pre fun _ => And.left)

theorem recBinding_tells : Tells (Told items l) (recBinding g) fun b =>
    ToldFresh items (l ++ RecBinding.choicesEach [b]) := by
  refine Tells.node (R := fun p => ToldFresh items (l ++ RecBinding.choicesEach
    [⟨p.1, p.2.1, p.2.2, .zero⟩])) ?_ fun p place s hs => hs
  refine name_tells.bind fun name => Tells.bind ((afterAny_tells hg).pre fun _ hs => hs.toToldFresh)
    fun ty => expect_tells.fresh.bind fun _ => (anyExpr_tells hg).fresh.last fun value s hs => ?_
  simpa [RecBinding.choicesEach] using hs.toToldFresh

omit hg in
theorem RecBinding.choicesEach_eq (bs : List RecBinding) :
    RecBinding.choicesEach bs = bs.flatMap fun b => RecBinding.choicesEach [b] := by
  induction bs with
  | nil => rfl
  | cons b bs ih =>
      rw [List.flatMap_cons, ← ih]
      cases b
      simp [RecBinding.choicesEach]

theorem rec_tells : Tells (Told items l) (rec_ g) fun form => ToldFresh items (l ++ form.choices) := by
  have more : ∀ l, Tells (ToldFresh items l) (nextRecBinding? g) fun r =>
      ToldFresh items (l ++ r.elim [] fun b => RecBinding.choicesEach [b]) := fun l => by
    refine Tells.see (v := fun s => s.tokenAt? 1) (fun _ => rfl) fun next => Tells.ite ?_ ?_
    · exact Tells.pure fun s hs => by simpa using hs.1
    · exact Tells.after (fun s hs _ => hs.1.advance) (recBinding_tells hg).fresh (fun _ _ => id)
        fun s hs _ => by simpa using hs.1
  have lam_ (bs : List RecBinding) : Tells (ToldFresh items (l ++ RecBinding.choicesEach bs))
      (after (.keyword .and_) (lam g)) fun lam =>
        ToldFresh items (l ++ RecBinding.choicesEach bs ++ Lam.choices? lam) :=
    Tells.after (fun s hs _ => hs.advance) (lam_tells hg).fresh (fun _ _ => id)
      fun s hs _ => by simpa [Lam.choices?] using hs
  refine expect_tells.bind fun _ => Tells.bind (R := fun bs =>
    ToldFresh items (l ++ RecBinding.choicesEach bs)) ?_ fun bs => (lam_ bs).last fun lam s hs => ?_
  · refine (recBinding_tells hg).fresh.bind fun b => (Tells.each more).last fun bs s hs => ?_
    rw [RecBinding.choicesEach_eq] at hs ⊢
    simpa using hs
  · simpa [DeclForm.choices] using hs

theorem rule_tells : Tells (Told items l) (rule g) fun form => ToldFresh items (l ++ form.choices) := by
  have body (kind : RuleKind) : Tells (ToldFresh items l) (do
      let binder ← binder g false
      expect (.symbol .colon)
      let lhs ← anyExpr g
      let guard ← after (.keyword .when_) (anyExpr g)
      expect (.symbol .fatArrow)
      return DeclForm.rule kind binder lhs guard (← anyExpr g)) fun form =>
        ToldFresh items (l ++ form.choices) := by
    refine (binder_tells hg false).bind fun b => Tells.bind (R := fun _ => ToldFresh items
      (l ++ b.asPattern ++ b.atEnd (some (.symbol .colon)) ++ b.choices .pi)) ?_ fun _ => ?_
    · refine Tells.expect fun s hs next => ?_
      rw [next] at hs
      exact hs.advance
    · refine (anyExpr_tells hg).fresh.bind fun lhs => Tells.bind ((afterAny_tells hg).pre
        fun _ hs => hs.toToldFresh) fun guard => expect_tells.fresh.bind fun _ => ?_
      refine (anyExpr_tells hg).fresh.last fun rhs s hs => ?_
      simpa [DeclForm.choices] using hs.toToldFresh
  refine Tells.accept (fun s hs _ => hs.advance) ((Tells.pure fun _ => id).bind fun kind => body kind) ?_
  refine Tells.bind (expect_tells.pre fun _ => And.left) fun _ => ?_
  exact (Tells.pure fun _ => id).bind fun kind => body kind

theorem declForm_tells : Tells (Told items l) (declForm g) fun form =>
    ToldFresh items (l ++ form.choices) := by
  refine Tells.peek fun next => Tells.pre (P := Told items l) ?_ fun _ => And.left
  split
  · exact axm_tells hg
  · exact cfun_tells hg
  · exact ccon_tells hg
  · exact let_tells hg
  · exact rec_tells hg
  · exact (lam_tells hg).map fun _ _ => id
  · exact (lam_tells hg).map fun _ _ => id
  · exact (lam_tells hg).map fun _ _ => id
  · exact rule_tells hg
  · exact rule_tells hg
  · exact Tells.unexpected

theorem declaration_tells : Tells (Told items l) (declaration g) fun d =>
    ToldFresh items (l ++ d.choices) :=
  Tells.see (v := id) (fun _ => rfl) fun _ =>
    Tells.node ((declForm_tells hg).pre fun _ => And.left) fun _ _ _ => id

end Grammar

end Mim
