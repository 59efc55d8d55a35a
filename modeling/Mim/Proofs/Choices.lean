import Mim.Proofs.Reformatting

/-! # The choices in a tree

Which tie-breaks the layout of a tree is read by, in their order. Most are told from one form,
and some from what comes next: a colon behind a domain that is only a name, a parenthesis
behind an annex. Nothing is told from where the tree stood or from its doc comments.
-/

namespace Mim

open Layout

/-- The first token that is no doc comment. -/
def Layout.opening (l : Layout) : Option Token := (Token.undoc l.tokens).head?

namespace TieBreak

/-- Behind an annex a parenthesis begins an argument. -/
def argument (annex : Bool) (next : Option Token) : List TieBreak :=
  if annex && next == some (.symbol .leftParen) then [.annexArgumentOverSubtags] else []

/-- Directly behind an expression a declaration is none of its arguments. -/
def misplaced (next : Option Token) : List TieBreak :=
  if next.any Token.startsDeclaration then [.declarationEndsApplication] else []

end TieBreak

open TieBreak (argument misplaced)

mutual

/-- An annex is the last thing in an expression that could go on. -/
def Expr.endsInAnnex : Expr → Bool
  | ⟨form, _⟩ => form.endsInAnnex

def Form.endsInAnnex : Form → Bool
  | .annex _ => true
  | .arrow _ last | .injection _ last | .application _ last _ | .extraction _ last =>
    last.endsInAnnex
  | .union variants => Expr.lastEndsInAnnex variants
  | _ => false

def Expr.lastEndsInAnnex : List Expr → Bool
  | [] => false
  | [e] => e.endsInAnnex
  | _ :: e :: es => Expr.lastEndsInAnnex (e :: es)

end

namespace Binder

/-- What is bound is a name, which could be a type as well. -/
def asPattern : Binder → List TieBreak
  | .name _ | .typed _ _ _ => [.patternOverBattern]
  | _ => []

/-- What is chosen at the end of a domain. -/
def atEnd (next : Option Token) : Binder → List TieBreak
  | .name _ => if next = some (.symbol .colon) then [.typeToEnclosingForm] else []
  | .type ty => argument ty.endsInAnnex next
  | _ => []

/-- What is chosen at a filter. -/
def atFilter : Binder → List TieBreak
  | .type _ => [.filterOverExplicitApplication]
  | _ => []

/-- What is chosen at a name that has a type behind it and is one itself. -/
def asType : Binder → List TieBreak
  | .type ⟨.ident _, _⟩ => [.typeToEnclosingForm]
  | _ => []

/-- What is chosen at an element of a tuple. -/
def asElement : Bracket → Binder → List TieBreak
  | .square, .group _ _ _ | .curly, .group _ _ _ => [.groupOverBatternType]
  | _, _ => []

/-- The token that comes next in front of some domains with a codomain behind them or without. -/
def next (codomain : Bool) : List Binder → Option Token
  | [] => if codomain then some (.symbol .colon) else none
  | b :: _ => b.layout.opening

end Binder

/-- The token that comes next in front of some parameters. -/
def Param.next (codomain : Bool) : List Param → Option Token
  | [] => if codomain then some (.symbol .colon) else none
  | p :: _ => p.domain.layout.opening

/-- The token that comes next in front of some arms. -/
def Arm.next : List Arm → Option Token
  | [] => none
  | a :: _ => a.binder.layout.opening

mutual

/-- The choices in an expression that is read at a least strength. -/
def Expr.choices (least : Prec) : Expr → List TieBreak
  | ⟨form, _⟩ => form.choices least

def Form.choices (least : Prec) : Form → List TieBreak
  | .primitive _ | .ident _ | .annex _ | .literal _ | .error => []
  | .ascribed _ _ ty =>
    (if .ascription < least then [.typeToLiteral] else []) ++ ty.choices .bottom
  | .block declarations body => Decl.choicesEach declarations ++ body.choices .bottom
  | .pi _ domain codomain => domain.choices .pi ++ Expr.choices? .arrow codomain
  | .lambda _ domains codomain body =>
    Binder.choicesEach codomain.isSome domains ++ Expr.choices? .bottom codomain ++
      body.choices .bottom
  | .insert tuple index value =>
    tuple.choices .bottom ++ index.choices .bottom ++ value.choices .bottom
  | .ret binder callee argument body =>
    binder.asPattern ++ binder.choices .pi ++ callee.choices .bottom ++
      argument.choices .bottom ++ body.choices .bottom
  | .uniq inner => inner.choices .bottom
  | .array sizes element => Expr.choicesEach .bottom .bottom sizes ++ element.choices .bottom
  | .pack shape body => shape.choices .bottom ++ body.choices .bottom
  | .sigma tuple _ => tuple.choices .pi
  | .tuple elements => Expr.choicesEach .bottom .bottom elements
  | .match_ scrutinee arms =>
    scrutinee.choices .bottom ++ misplaced (Arm.next arms) ++ Arm.choicesEach arms
  | .extraction tuple index => tuple.choices least ++ index.choices Operator.extraction.rightMin
  | .arrow domain codomain => domain.choices least ++ codomain.choices Operator.arrow.rightMin
  | .union variants => Expr.choicesEach least Operator.union.rightMin variants
  | .injection value ty => value.choices least ++ ty.choices Operator.injection.rightMin
  | .application callee argument explicit =>
    callee.choices least ++
      (if explicit then []
        else TieBreak.argument callee.endsInAnnex argument.layout.opening ++
          misplaced argument.layout.opening) ++
      argument.choices Operator.application.rightMin
  | .where_ body declarations => body.choices least ++ Decl.choicesEach declarations

/-- The choices in expressions, the first of which has a least strength of its own. -/
def Expr.choicesEach (first others : Prec) : List Expr → List TieBreak
  | [] => []
  | e :: es => e.choices first ++ Expr.choicesEach others others es

def Expr.choices? (least : Prec) : Option Expr → List TieBreak
  | none => []
  | some e => e.choices least

def Arm.choicesEach : List Arm → List TieBreak
  | [] => []
  | ⟨binder, body, _⟩ :: arms =>
    binder.asPattern ++ binder.choices .pi ++ body.choices .bottom ++ Arm.choicesEach arms

/-- The choices in a binder whose type, if it is only that, is read at a least strength. -/
def Binder.choices (least : Prec) : Binder → List TieBreak
  | .name _ => []
  | .typed _ ty _ | .group _ ty _ => ty.choices .bottom
  | .type ty => ty.choices least
  | .tuple bracket elements _ => Binder.elementChoices bracket elements

def Binder.elementChoices (bracket : Bracket) : List Binder → List TieBreak
  | [] => []
  | b :: bs => b.asElement bracket ++ b.choices .bottom ++ Binder.elementChoices bracket bs

/-- The choices in domains with a codomain behind them or without. -/
def Binder.choicesEach (codomain : Bool) : List Binder → List TieBreak
  | [] => []
  | b :: bs =>
    b.choices .union ++ b.atEnd (Binder.next codomain bs) ++ misplaced (Binder.next codomain bs) ++
      Binder.choicesEach codomain bs

def Decl.choices : Decl → List TieBreak
  | ⟨_, form, _⟩ => form.choices

def Decl.choicesEach : List Decl → List TieBreak
  | [] => []
  | d :: ds => d.choices ++ Decl.choicesEach ds

def DeclForm.choices : DeclForm → List TieBreak
  | .axm _ ty _ _ => ty.choices .bottom
  | .cfun domain ty => domain.asType ++ domain.choices .pi ++ ty.choices .bottom
  | .ccon domain => domain.choices .pi
  | .letAnnex _ value => value.choices .bottom
  | .let_ target value => target.asPattern ++ target.choices .pi ++ value.choices .bottom
  | .rec_ bindings lam => RecBinding.choicesEach bindings ++ Lam.choices? lam
  | .lam lam => lam.choices
  | .rule _ binder lhs guard rhs =>
    binder.asPattern ++ binder.atEnd (some (.symbol .colon)) ++ binder.choices .pi ++
      lhs.choices .bottom ++ Expr.choices? .bottom guard ++ rhs.choices .bottom
  | .error => []

def RecBinding.choicesEach : List RecBinding → List TieBreak
  | [] => []
  | ⟨_, ty, value, _⟩ :: bindings =>
    Expr.choices? .bottom ty ++ value.choices .bottom ++ RecBinding.choicesEach bindings

def Lam.choices : Lam → List TieBreak
  | ⟨_, _, _, params, codomain, body, _⟩ =>
    misplaced (Param.next codomain.isSome params) ++ Param.choicesEach codomain.isSome params ++
      Expr.choices? .bottom codomain ++ Expr.choices? .bottom body

def Lam.choices? : Option Lam → List TieBreak
  | none => []
  | some lam => lam.choices

/-- The choices in parameters with a codomain behind them or without. -/
def Param.choicesEach (codomain : Bool) : List Param → List TieBreak
  | [] => []
  | ⟨domain, none, _⟩ :: ps =>
    domain.choices .union ++ domain.atEnd (Param.next codomain ps) ++
      misplaced (Param.next codomain ps) ++ Param.choicesEach codomain ps
  | ⟨domain, some filter, _⟩ :: ps =>
    domain.choices .union ++ domain.atFilter ++ filter.choices .union ++
      argument filter.endsInAnnex (Param.next codomain ps) ++
      misplaced (Param.next codomain ps) ++ Param.choicesEach codomain ps

end

/-- The choices in a file. -/
def File.choices (f : File) : List TieBreak := Decl.choicesEach f.declarations

/-! ## Choices do not depend on places -/

section Places

variable (f : Change)

theorem Layout.opening_eq (l : Layout) :
    l.opening = (l.flatMap fun p => Token.undoc p.token?.toList).head? := by
  rw [opening, undoc_tokens]

theorem Expr.opening_mapSpan (e : Expr) : (e.mapSpan f).layout.opening = e.layout.opening := by
  rw [Layout.opening_eq, Layout.opening_eq]
  exact congrArg List.head? (e.layout_mapSpan .solid)

theorem Binder.opening_mapSpan (b : Binder) : (b.mapSpan f).layout.opening = b.layout.opening := by
  rw [Layout.opening_eq, Layout.opening_eq]
  exact congrArg List.head? (b.layout_mapSpan .solid)

theorem Binder.next_mapSpans (codomain : Bool) (bs : List Binder) :
    Binder.next codomain (Binder.mapSpans f bs) = Binder.next codomain bs := by
  cases bs with
  | nil => rfl
  | cons b bs => exact b.opening_mapSpan f

theorem Param.next_mapSpans (codomain : Bool) (ps : List Param) :
    Param.next codomain (Param.mapSpans f ps) = Param.next codomain ps := by
  cases ps with
  | nil => rfl
  | cons p ps =>
      cases p
      exact Binder.opening_mapSpan f _

theorem Arm.next_mapSpans (arms : List Arm) : Arm.next (Arm.mapSpans f arms) = Arm.next arms := by
  cases arms with
  | nil => rfl
  | cons a arms =>
      cases a
      exact Binder.opening_mapSpan f _

mutual

theorem Expr.endsInAnnex_mapSpan : ∀ e : Expr, (e.mapSpan f).endsInAnnex = e.endsInAnnex
  | ⟨form, _⟩ => form.endsInAnnex_mapSpan

theorem Form.endsInAnnex_mapSpan : ∀ form : Form, (form.mapSpan f).endsInAnnex = form.endsInAnnex
  | .arrow _ last | .injection _ last | .application _ last _ | .extraction _ last =>
    last.endsInAnnex_mapSpan
  | .union variants => Expr.lastEndsInAnnex_mapSpans variants
  | .primitive _ | .ident _ | .annex _ | .literal _ | .ascribed _ _ _ | .block _ _ | .pi _ _ _
  | .lambda _ _ _ _ | .insert _ _ _ | .ret _ _ _ _ | .uniq _ | .array _ _ | .pack _ _ | .sigma _ _
  | .tuple _ | .match_ _ _ | .where_ _ _ | .error => rfl

theorem Expr.lastEndsInAnnex_mapSpans : ∀ es : List Expr,
    Expr.lastEndsInAnnex (Expr.mapSpans f es) = Expr.lastEndsInAnnex es
  | [] => rfl
  | [e] => e.endsInAnnex_mapSpan
  | _ :: e :: es => Expr.lastEndsInAnnex_mapSpans (e :: es)

end

theorem Expr.isSome_mapSpan? (e : Option Expr) : (Expr.mapSpan? f e).isSome = e.isSome := by
  cases e <;> rfl

theorem Binder.asPattern_mapSpan (b : Binder) : (b.mapSpan f).asPattern = b.asPattern := by
  cases b <;> rfl

theorem Binder.atEnd_mapSpan (next : Option Token) (b : Binder) :
    (b.mapSpan f).atEnd next = b.atEnd next := by
  cases b with
  | type ty => exact congrArg (argument · next) (ty.endsInAnnex_mapSpan f)
  | _ => rfl

theorem Binder.atFilter_mapSpan (b : Binder) : (b.mapSpan f).atFilter = b.atFilter := by
  cases b <;> rfl

theorem Binder.asType_mapSpan (b : Binder) : (b.mapSpan f).asType = b.asType := by
  cases b with
  | type ty =>
      obtain ⟨form, place⟩ := ty
      cases form <;> rfl
  | _ => rfl

theorem Binder.asElement_mapSpan (bracket : Bracket) (b : Binder) :
    (b.mapSpan f).asElement bracket = b.asElement bracket := by
  cases b <;> cases bracket <;> rfl

mutual

theorem Expr.choices_mapSpan {least : Prec} :
    ∀ e : Expr, (e.mapSpan f).choices least = e.choices least
  | ⟨form, _⟩ => form.choices_mapSpan

theorem Form.choices_mapSpan {least : Prec} :
    ∀ form : Form, (form.mapSpan f).choices least = form.choices least
  | .primitive _ | .ident _ | .annex _ | .literal _ | .error => rfl
  | .ascribed _ _ ty => by simp [Form.mapSpan, Form.choices, ty.choices_mapSpan]
  | .block ds body => by
      simp [Form.mapSpan, Form.choices, Decl.choicesEach_mapSpans ds, body.choices_mapSpan]
  | .pi _ domain codomain => by
      simp [Form.mapSpan, Form.choices, domain.choices_mapSpan, Expr.choices?_mapSpan codomain]
  | .lambda _ domains codomain body => by
      simp [Form.mapSpan, Form.choices, Expr.isSome_mapSpan?, Binder.choicesEach_mapSpans domains,
        Expr.choices?_mapSpan codomain, body.choices_mapSpan]
  | .insert a b c => by
      simp [Form.mapSpan, Form.choices, a.choices_mapSpan, b.choices_mapSpan, c.choices_mapSpan]
  | .ret binder a b c => by
      simp [Form.mapSpan, Form.choices, binder.asPattern_mapSpan, binder.choices_mapSpan,
        a.choices_mapSpan, b.choices_mapSpan, c.choices_mapSpan]
  | .uniq inner => by simp [Form.mapSpan, Form.choices, inner.choices_mapSpan]
  | .array sizes element => by
      simp [Form.mapSpan, Form.choices, Expr.choicesEach_mapSpans sizes, element.choices_mapSpan]
  | .sigma tuple _ => by simp [Form.mapSpan, Form.choices, tuple.choices_mapSpan]
  | .tuple es | .union es => by simp [Form.mapSpan, Form.choices, Expr.choicesEach_mapSpans es]
  | .match_ e arms => by
      simp [Form.mapSpan, Form.choices, e.choices_mapSpan, Arm.next_mapSpans,
        Arm.choicesEach_mapSpans arms]
  | .pack a b | .extraction a b | .arrow a b | .injection a b => by
      simp [Form.mapSpan, Form.choices, a.choices_mapSpan, b.choices_mapSpan]
  | .application a b _ => by
      simp [Form.mapSpan, Form.choices, a.choices_mapSpan, b.choices_mapSpan,
        a.endsInAnnex_mapSpan, b.opening_mapSpan]
  | .where_ body ds => by
      simp [Form.mapSpan, Form.choices, body.choices_mapSpan, Decl.choicesEach_mapSpans ds]

theorem Expr.choicesEach_mapSpans {first others : Prec} : ∀ es : List Expr,
    Expr.choicesEach first others (Expr.mapSpans f es) = Expr.choicesEach first others es
  | [] => rfl
  | e :: es => by
      simp [Expr.mapSpans, Expr.choicesEach, e.choices_mapSpan, Expr.choicesEach_mapSpans es]

theorem Expr.choices?_mapSpan {least : Prec} : ∀ e : Option Expr,
    Expr.choices? least (Expr.mapSpan? f e) = Expr.choices? least e
  | none => rfl
  | some e => by simp [Expr.mapSpan?, Expr.choices?, e.choices_mapSpan]

theorem Arm.choicesEach_mapSpans : ∀ arms : List Arm,
    Arm.choicesEach (Arm.mapSpans f arms) = Arm.choicesEach arms
  | [] => rfl
  | ⟨binder, body, _⟩ :: arms => by
      simp [Arm.mapSpans, Arm.mapSpan, Arm.choicesEach, binder.asPattern_mapSpan,
        binder.choices_mapSpan, body.choices_mapSpan, Arm.choicesEach_mapSpans arms]

theorem Binder.choices_mapSpan {least : Prec} :
    ∀ b : Binder, (b.mapSpan f).choices least = b.choices least
  | .name _ => rfl
  | .typed _ ty _ | .type ty | .group _ ty _ => by
      simp [Binder.mapSpan, Binder.choices, ty.choices_mapSpan]
  | .tuple _ bs _ => by
      simp [Binder.mapSpan, Binder.choices, Binder.elementChoices_mapSpans bs]

theorem Binder.elementChoices_mapSpans {bracket : Bracket} : ∀ bs : List Binder,
    Binder.elementChoices bracket (Binder.mapSpans f bs) = Binder.elementChoices bracket bs
  | [] => rfl
  | b :: bs => by
      simp [Binder.mapSpans, Binder.elementChoices, b.asElement_mapSpan, b.choices_mapSpan,
        Binder.elementChoices_mapSpans bs]

theorem Binder.choicesEach_mapSpans {codomain : Bool} : ∀ bs : List Binder,
    Binder.choicesEach codomain (Binder.mapSpans f bs) = Binder.choicesEach codomain bs
  | [] => rfl
  | b :: bs => by
      simp [Binder.mapSpans, Binder.choicesEach, b.choices_mapSpan, b.atEnd_mapSpan,
        Binder.next_mapSpans, Binder.choicesEach_mapSpans bs]

theorem Decl.choices_mapSpan : ∀ d : Decl, (d.mapSpan f).choices = d.choices
  | ⟨_, form, _⟩ => form.choices_mapSpan

theorem Decl.choicesEach_mapSpans : ∀ ds : List Decl,
    Decl.choicesEach (Decl.mapSpans f ds) = Decl.choicesEach ds
  | [] => rfl
  | d :: ds => by
      simp [Decl.mapSpans, Decl.choicesEach, d.choices_mapSpan, Decl.choicesEach_mapSpans ds]

theorem DeclForm.choices_mapSpan : ∀ form : DeclForm, (form.mapSpan f).choices = form.choices
  | .axm _ ty _ _ => by simp [DeclForm.mapSpan, DeclForm.choices, ty.choices_mapSpan]
  | .cfun domain ty => by
      simp [DeclForm.mapSpan, DeclForm.choices, domain.asType_mapSpan, domain.choices_mapSpan,
        ty.choices_mapSpan]
  | .ccon domain => by simp [DeclForm.mapSpan, DeclForm.choices, domain.choices_mapSpan]
  | .letAnnex _ value => by simp [DeclForm.mapSpan, DeclForm.choices, value.choices_mapSpan]
  | .let_ target value => by
      simp [DeclForm.mapSpan, DeclForm.choices, target.asPattern_mapSpan, target.choices_mapSpan,
        value.choices_mapSpan]
  | .rec_ bindings lam => by
      simp [DeclForm.mapSpan, DeclForm.choices, RecBinding.choicesEach_mapSpans bindings,
        Lam.choices?_mapSpan lam]
  | .lam lam => lam.choices_mapSpan
  | .rule _ binder lhs guard rhs => by
      simp [DeclForm.mapSpan, DeclForm.choices, binder.asPattern_mapSpan, binder.atEnd_mapSpan,
        binder.choices_mapSpan, lhs.choices_mapSpan, Expr.choices?_mapSpan guard,
        rhs.choices_mapSpan]
  | .error => rfl

theorem RecBinding.choicesEach_mapSpans : ∀ bs : List RecBinding,
    RecBinding.choicesEach (RecBinding.mapSpans f bs) = RecBinding.choicesEach bs
  | [] => rfl
  | ⟨_, ty, value, _⟩ :: bs => by
      simp [RecBinding.mapSpans, RecBinding.mapSpan, RecBinding.choicesEach,
        Expr.choices?_mapSpan ty, value.choices_mapSpan, RecBinding.choicesEach_mapSpans bs]

theorem Lam.choices_mapSpan : ∀ lam : Lam, (lam.mapSpan f).choices = lam.choices
  | ⟨_, _, _, params, codomain, body, _⟩ => by
      simp [Lam.mapSpan, Lam.choices, Expr.isSome_mapSpan?, Param.next_mapSpans,
        Param.choicesEach_mapSpans params, Expr.choices?_mapSpan codomain,
        Expr.choices?_mapSpan body]

theorem Lam.choices?_mapSpan : ∀ lam : Option Lam,
    Lam.choices? (Lam.mapSpan? f lam) = Lam.choices? lam
  | none => rfl
  | some lam => lam.choices_mapSpan

theorem Param.choicesEach_mapSpans {codomain : Bool} : ∀ ps : List Param,
    Param.choicesEach codomain (Param.mapSpans f ps) = Param.choicesEach codomain ps
  | [] => rfl
  | ⟨domain, none, _⟩ :: ps => by
      simp [Param.mapSpans, Param.mapSpan, Expr.mapSpan?, Param.choicesEach,
        domain.choices_mapSpan, domain.atEnd_mapSpan, Param.next_mapSpans,
        Param.choicesEach_mapSpans ps]
  | ⟨domain, some filter, _⟩ :: ps => by
      simp [Param.mapSpans, Param.mapSpan, Expr.mapSpan?, Param.choicesEach,
        domain.choices_mapSpan, domain.atFilter_mapSpan, filter.choices_mapSpan,
        filter.endsInAnnex_mapSpan, Param.next_mapSpans, Param.choicesEach_mapSpans ps]

end

theorem File.choices_respan (file : File) : (respan f file).choices = file.choices := by
  have declarations : (respan f file).declarations = Decl.mapSpans f file.declarations := by
    change file.declarations.map (Decl.mapSpan f) = _
    induction file.declarations with
    | nil => rfl
    | cons d ds ih => rw [List.map_cons, Decl.mapSpans, ih]
  rw [choices, declarations, Decl.choicesEach_mapSpans, choices]

end Places

end Mim
