import Mim.Grammar.File

/-! # Spans moved all at once

A change of spans acts on everything that carries spans. Two texts that differ
only in where their tokens stand are compared through it: a shift moves what was
read to another place, and a constant forgets the places altogether. Doc comments
are kept, forgotten or changed in the same way.
-/

namespace Mim

/-- What becomes of the spans of a tree and of its doc comments. -/
structure Change where
  span : Span → Span
  doc : Option String → Option String
  doc_none : doc none = none

namespace Change

instance : CoeFun Change fun _ => Span → Span := ⟨Change.span⟩

/-- Nothing changes. -/
def id : Change := ⟨fun s => s, fun d => d, rfl⟩

/-- All stands `n` bytes further on. -/
def shift (n : Nat) : Change := ⟨Span.shift n, fun d => d, rfl⟩

/-- Places are forgotten. -/
def placeless : Change := ⟨fun _ => Span.zero, fun d => d, rfl⟩

/-- The same change, where doc comments are forgotten. -/
def undocumented (f : Change) : Change := ⟨f.span, fun _ => none, rfl⟩

@[simp] theorem id_span (s : Span) : Change.id s = s := rfl

@[simp] theorem id_doc (d : Option String) : Change.id.doc d = d := rfl

end Change

/-- What a change does to values of a type. -/
class Spanned (α : Type) where
  respan : Change → α → α
  respan_id : ∀ a, respan Change.id a = a

export Spanned (respan)

section Instances

variable {α β : Type}

/-- A type without spans. -/
@[reducible]
def Spanned.plain : Spanned α := ⟨fun _ a => a, fun _ => rfl⟩

instance : Spanned Unit := Spanned.plain
instance : Spanned Bool := Spanned.plain
instance : Spanned Nat := Spanned.plain
instance : Spanned Token := Spanned.plain
instance : Spanned Literal := Spanned.plain
instance : Spanned AnnexPath := Spanned.plain
instance : Spanned DependencyKind := Spanned.plain
instance : Spanned LamKind := Spanned.plain
instance : Spanned RuleKind := Spanned.plain
instance : Spanned Operator := Spanned.plain
instance : Spanned Span := ⟨fun f s => f s, fun _ => rfl⟩
instance : Spanned ParseError := ⟨fun f e => ⟨e.fault, f e.span⟩, fun _ => rfl⟩
instance : Spanned Diagnostic := ⟨fun f d => ⟨d.cause, f d.span⟩, fun _ => rfl⟩
instance : Spanned Item := ⟨fun f i => ⟨i.token, f i.span, f.doc i.doc⟩, fun _ => rfl⟩

instance [Spanned α] : Spanned (Option α) where
  respan f a := a.map (respan f)
  respan_id a := by cases a <;> simp [Spanned.respan_id]

instance [Spanned α] : Spanned (List α) where
  respan f as := as.map (respan f)
  respan_id as := by
    induction as with
    | nil => rfl
    | cons a as ih => simpa [Spanned.respan_id] using ih

instance [Spanned α] [Spanned β] : Spanned (α × β) where
  respan f p := (respan f p.1, respan f p.2)
  respan_id p := by simp [Spanned.respan_id]

instance [Spanned α] : Spanned (Except Span α) where
  respan f
    | .ok a => .ok (respan f a)
    | .error span => .error (f span)
  respan_id a := by cases a <;> simp [Spanned.respan_id]

end Instances

instance : Spanned Ident := ⟨fun f i => ⟨i.name, f i.span⟩, fun _ => rfl⟩

instance : Spanned Subtag where
  respan f t := ⟨respan f t.tag, respan f t.aliases, f t.span⟩
  respan_id t := by simp [Spanned.respan_id]

instance : Spanned Annex where
  respan f a := ⟨a.path, respan f a.subtags, f a.span⟩
  respan_id a := by simp [Spanned.respan_id]

instance : Spanned Name where
  respan f
    | .ident i => .ident (respan f i)
    | .annex a => .annex (respan f a)
  respan_id a := by cases a <;> simp [Spanned.respan_id]

instance : Spanned Dependency where
  respan f d := ⟨d.kind, respan f d.name, f d.span⟩
  respan_id d := by simp [Spanned.respan_id]

mutual

def Expr.mapSpan (f : Change) : Expr → Expr
  | ⟨form, span⟩ => ⟨form.mapSpan f, f span⟩

def Form.mapSpan (f : Change) : Form → Form
  | .primitive ty => .primitive ty
  | .ident name => .ident name
  | .annex path => .annex path
  | .literal value => .literal value
  | .ascribed value valueSpan ty => .ascribed value (f valueSpan) (ty.mapSpan f)
  | .block declarations body => .block (Decl.mapSpans f declarations) (body.mapSpan f)
  | .pi kind domain codomain => .pi kind (domain.mapSpan f) (Expr.mapSpan? f codomain)
  | .lambda kind domains codomain body =>
    .lambda kind (Binder.mapSpans f domains) (Expr.mapSpan? f codomain) (body.mapSpan f)
  | .insert tuple index value =>
    .insert (tuple.mapSpan f) (index.mapSpan f) (value.mapSpan f)
  | .ret binder callee argument body =>
    .ret (binder.mapSpan f) (callee.mapSpan f) (argument.mapSpan f) (body.mapSpan f)
  | .uniq inner => .uniq (inner.mapSpan f)
  | .array sizes element => .array (Expr.mapSpans f sizes) (element.mapSpan f)
  | .pack shape body => .pack (shape.mapSpan f) (body.mapSpan f)
  | .sigma tuple label => .sigma (tuple.mapSpan f) (respan f label)
  | .tuple elements => .tuple (Expr.mapSpans f elements)
  | .match_ scrutinee arms => .match_ (scrutinee.mapSpan f) (Arm.mapSpans f arms)
  | .extraction tuple index => .extraction (tuple.mapSpan f) (index.mapSpan f)
  | .arrow domain codomain => .arrow (domain.mapSpan f) (codomain.mapSpan f)
  | .union variants => .union (Expr.mapSpans f variants)
  | .injection value ty => .injection (value.mapSpan f) (ty.mapSpan f)
  | .application callee argument explicit =>
    .application (callee.mapSpan f) (argument.mapSpan f) explicit
  | .where_ body declarations => .where_ (body.mapSpan f) (Decl.mapSpans f declarations)
  | .error => .error

def Expr.mapSpans (f : Change) : List Expr → List Expr
  | [] => []
  | e :: es => e.mapSpan f :: Expr.mapSpans f es

def Expr.mapSpan? (f : Change) : Option Expr → Option Expr
  | none => none
  | some e => some (e.mapSpan f)

def Arm.mapSpan (f : Change) : Arm → Arm
  | ⟨binder, body, span⟩ => ⟨binder.mapSpan f, body.mapSpan f, f span⟩

def Arm.mapSpans (f : Change) : List Arm → List Arm
  | [] => []
  | a :: as => a.mapSpan f :: Arm.mapSpans f as

def Binder.mapSpan (f : Change) : Binder → Binder
  | .name ident => .name (respan f ident)
  | .typed ident ty span => .typed (respan f ident) (ty.mapSpan f) (f span)
  | .type ty => .type (ty.mapSpan f)
  | .group names ty span => .group (respan f names) (ty.mapSpan f) (f span)
  | .tuple bracket elements span => .tuple bracket (Binder.mapSpans f elements) (f span)

def Binder.mapSpans (f : Change) : List Binder → List Binder
  | [] => []
  | b :: bs => b.mapSpan f :: Binder.mapSpans f bs

def Decl.mapSpan (f : Change) : Decl → Decl
  | ⟨doc, form, span⟩ => ⟨f.doc doc, form.mapSpan f, f span⟩

def Decl.mapSpans (f : Change) : List Decl → List Decl
  | [] => []
  | d :: ds => d.mapSpan f :: Decl.mapSpans f ds

def DeclForm.mapSpan (f : Change) : DeclForm → DeclForm
  | .axm name ty normalizer curryAndTrip =>
    .axm (respan f name) (ty.mapSpan f) (respan f normalizer)
      (respan f curryAndTrip)
  | .cfun domain ty => .cfun (domain.mapSpan f) (ty.mapSpan f)
  | .ccon domain => .ccon (domain.mapSpan f)
  | .letAnnex target value => .letAnnex (respan f target) (value.mapSpan f)
  | .let_ target value => .let_ (target.mapSpan f) (value.mapSpan f)
  | .rec_ bindings lam => .rec_ (RecBinding.mapSpans f bindings) (Lam.mapSpan? f lam)
  | .lam lam => .lam (lam.mapSpan f)
  | .rule kind binder lhs guard rhs =>
    .rule kind (binder.mapSpan f) (lhs.mapSpan f) (Expr.mapSpan? f guard) (rhs.mapSpan f)
  | .error => .error

def RecBinding.mapSpan (f : Change) : RecBinding → RecBinding
  | ⟨name, ty, value, span⟩ =>
    ⟨respan f name, Expr.mapSpan? f ty, value.mapSpan f, f span⟩

def RecBinding.mapSpans (f : Change) : List RecBinding → List RecBinding
  | [] => []
  | b :: bs => b.mapSpan f :: RecBinding.mapSpans f bs

def Lam.mapSpan (f : Change) : Lam → Lam
  | ⟨kind, isExternal, name, params, codomain, body, span⟩ =>
    ⟨kind, isExternal, respan f name, Param.mapSpans f params, Expr.mapSpan? f codomain,
      Expr.mapSpan? f body, f span⟩

def Lam.mapSpan? (f : Change) : Option Lam → Option Lam
  | none => none
  | some l => some (l.mapSpan f)

def Param.mapSpan (f : Change) : Param → Param
  | ⟨domain, filter, span⟩ => ⟨domain.mapSpan f, Expr.mapSpan? f filter, f span⟩

def Param.mapSpans (f : Change) : List Param → List Param
  | [] => []
  | p :: ps => p.mapSpan f :: Param.mapSpans f ps

end

mutual

theorem Expr.mapSpan_id : ∀ e : Expr, e.mapSpan Change.id = e
  | ⟨form, span⟩ => by simp [Expr.mapSpan, form.mapSpan_id]

theorem Form.mapSpan_id : ∀ form : Form, form.mapSpan Change.id = form
  | .primitive _ | .ident _ | .annex _ | .literal _ | .error => rfl
  | .ascribed _ _ ty => by simp [Form.mapSpan, ty.mapSpan_id]
  | .block ds body => by simp [Form.mapSpan, Decl.mapSpans_id ds, body.mapSpan_id]
  | .pi _ domain codomain => by
      simp [Form.mapSpan, domain.mapSpan_id, Expr.mapSpan?_id codomain]
  | .lambda _ domains codomain body => by
      simp [Form.mapSpan, Binder.mapSpans_id domains, Expr.mapSpan?_id codomain, body.mapSpan_id]
  | .insert a b c => by simp [Form.mapSpan, a.mapSpan_id, b.mapSpan_id, c.mapSpan_id]
  | .ret binder a b c => by
      simp [Form.mapSpan, binder.mapSpan_id, a.mapSpan_id, b.mapSpan_id, c.mapSpan_id]
  | .uniq inner => by simp [Form.mapSpan, inner.mapSpan_id]
  | .array sizes element => by simp [Form.mapSpan, Expr.mapSpans_id sizes, element.mapSpan_id]
  | .pack a b | .extraction a b | .arrow a b | .injection a b | .application a b _ => by
      simp [Form.mapSpan, a.mapSpan_id, b.mapSpan_id]
  | .sigma tuple label => by simp [Form.mapSpan, tuple.mapSpan_id, Spanned.respan_id]
  | .tuple es | .union es => by simp [Form.mapSpan, Expr.mapSpans_id es]
  | .match_ e arms => by simp [Form.mapSpan, e.mapSpan_id, Arm.mapSpans_id arms]
  | .where_ body ds => by simp [Form.mapSpan, body.mapSpan_id, Decl.mapSpans_id ds]

theorem Expr.mapSpans_id : ∀ es : List Expr, Expr.mapSpans Change.id es = es
  | [] => rfl
  | e :: es => by simp [Expr.mapSpans, e.mapSpan_id, Expr.mapSpans_id es]

theorem Expr.mapSpan?_id : ∀ e : Option Expr, Expr.mapSpan? Change.id e = e
  | none => rfl
  | some e => by simp [Expr.mapSpan?, e.mapSpan_id]

theorem Arm.mapSpans_id : ∀ as : List Arm, Arm.mapSpans Change.id as = as
  | [] => rfl
  | ⟨binder, body, span⟩ :: as => by
      simp [Arm.mapSpans, Arm.mapSpan, binder.mapSpan_id, body.mapSpan_id, Arm.mapSpans_id as]

theorem Binder.mapSpan_id : ∀ b : Binder, b.mapSpan Change.id = b
  | .name _ => by simp [Binder.mapSpan, Spanned.respan_id]
  | .typed _ ty _ | .group _ ty _ => by
      simp [Binder.mapSpan, Spanned.respan_id, ty.mapSpan_id]
  | .type ty => by simp [Binder.mapSpan, ty.mapSpan_id]
  | .tuple _ bs _ => by simp [Binder.mapSpan, Binder.mapSpans_id bs]

theorem Binder.mapSpans_id : ∀ bs : List Binder, Binder.mapSpans Change.id bs = bs
  | [] => rfl
  | b :: bs => by simp [Binder.mapSpans, b.mapSpan_id, Binder.mapSpans_id bs]

theorem Decl.mapSpan_id : ∀ d : Decl, d.mapSpan Change.id = d
  | ⟨doc, form, span⟩ => by simp [Decl.mapSpan, form.mapSpan_id]

theorem Decl.mapSpans_id : ∀ ds : List Decl, Decl.mapSpans Change.id ds = ds
  | [] => rfl
  | d :: ds => by simp [Decl.mapSpans, d.mapSpan_id, Decl.mapSpans_id ds]

theorem DeclForm.mapSpan_id : ∀ form : DeclForm, form.mapSpan Change.id = form
  | .axm _ ty _ _ => by simp [DeclForm.mapSpan, Spanned.respan_id, ty.mapSpan_id]
  | .cfun domain ty => by simp [DeclForm.mapSpan, domain.mapSpan_id, ty.mapSpan_id]
  | .ccon domain => by simp [DeclForm.mapSpan, domain.mapSpan_id]
  | .letAnnex _ value => by simp [DeclForm.mapSpan, Spanned.respan_id, value.mapSpan_id]
  | .let_ target value => by simp [DeclForm.mapSpan, target.mapSpan_id, value.mapSpan_id]
  | .rec_ bindings lam => by
      simp [DeclForm.mapSpan, RecBinding.mapSpans_id bindings, Lam.mapSpan?_id lam]
  | .lam lam => by simp [DeclForm.mapSpan, lam.mapSpan_id]
  | .rule _ binder lhs guard rhs => by
      simp [DeclForm.mapSpan, binder.mapSpan_id, lhs.mapSpan_id, Expr.mapSpan?_id guard,
        rhs.mapSpan_id]
  | .error => rfl

theorem RecBinding.mapSpans_id : ∀ bs : List RecBinding, RecBinding.mapSpans Change.id bs = bs
  | [] => rfl
  | ⟨name, ty, value, span⟩ :: bs => by
      simp [RecBinding.mapSpans, RecBinding.mapSpan, Spanned.respan_id, Expr.mapSpan?_id ty,
        value.mapSpan_id, RecBinding.mapSpans_id bs]

theorem Lam.mapSpan_id : ∀ l : Lam, l.mapSpan Change.id = l
  | ⟨kind, isExternal, name, params, codomain, body, span⟩ => by
      simp [Lam.mapSpan, Spanned.respan_id, Param.mapSpans_id params,
        Expr.mapSpan?_id codomain, Expr.mapSpan?_id body]

theorem Lam.mapSpan?_id : ∀ l : Option Lam, Lam.mapSpan? Change.id l = l
  | none => rfl
  | some l => by simp [Lam.mapSpan?, l.mapSpan_id]

theorem Param.mapSpans_id : ∀ ps : List Param, Param.mapSpans Change.id ps = ps
  | [] => rfl
  | ⟨domain, filter, span⟩ :: ps => by
      simp [Param.mapSpans, Param.mapSpan, domain.mapSpan_id, Expr.mapSpan?_id filter,
        Param.mapSpans_id ps]

end

/-! Lists and options inside a tree are mapped as any others. -/

instance : Spanned Expr := ⟨Expr.mapSpan, Expr.mapSpan_id⟩
instance : Spanned Form := ⟨Form.mapSpan, Form.mapSpan_id⟩
instance : Spanned Binder := ⟨Binder.mapSpan, Binder.mapSpan_id⟩
instance : Spanned Decl := ⟨Decl.mapSpan, Decl.mapSpan_id⟩
instance : Spanned DeclForm := ⟨DeclForm.mapSpan, DeclForm.mapSpan_id⟩
instance : Spanned Lam := ⟨Lam.mapSpan, Lam.mapSpan_id⟩

instance : Spanned Arm := ⟨Arm.mapSpan, fun a => by
  simpa [Arm.mapSpans] using Arm.mapSpans_id [a]⟩

instance : Spanned RecBinding := ⟨RecBinding.mapSpan, fun b => by
  simpa [RecBinding.mapSpans] using RecBinding.mapSpans_id [b]⟩

instance : Spanned Param := ⟨Param.mapSpan, fun p => by
  simpa [Param.mapSpans] using Param.mapSpans_id [p]⟩

section Lists

variable (f : Change)

theorem Expr.mapSpans_eq (es : List Expr) : Expr.mapSpans f es = respan f es := by
  induction es with
  | nil => rfl
  | cons e es ih => exact congrArg _ ih

theorem Expr.mapSpan?_eq (e : Option Expr) : Expr.mapSpan? f e = respan f e := by
  cases e <;> rfl

theorem Arm.mapSpans_eq (as : List Arm) : Arm.mapSpans f as = respan f as := by
  induction as with
  | nil => rfl
  | cons a as ih => exact congrArg _ ih

theorem Binder.mapSpans_eq (bs : List Binder) : Binder.mapSpans f bs = respan f bs := by
  induction bs with
  | nil => rfl
  | cons b bs ih => exact congrArg _ ih

theorem Decl.mapSpans_eq (ds : List Decl) : Decl.mapSpans f ds = respan f ds := by
  induction ds with
  | nil => rfl
  | cons d ds ih => exact congrArg _ ih

theorem RecBinding.mapSpans_eq (bs : List RecBinding) :
    RecBinding.mapSpans f bs = respan f bs := by
  induction bs with
  | nil => rfl
  | cons b bs ih => exact congrArg _ ih

theorem Lam.mapSpan?_eq (l : Option Lam) : Lam.mapSpan? f l = respan f l := by
  cases l <;> rfl

theorem Param.mapSpans_eq (ps : List Param) : Param.mapSpans f ps = respan f ps := by
  induction ps with
  | nil => rfl
  | cons p ps ih => exact congrArg _ ih

theorem Expr.span_respan (e : Expr) : (respan f e).span = f e.span := by
  cases e
  rfl

/-- A placeholder has no doc comment. -/
theorem Decl.respan_error (place : Span) :
    respan f (Decl.mk none .error place) = ⟨none, .error, f place⟩ :=
  congrArg (Decl.mk · _ _) f.doc_none

theorem Form.respan_block (declarations : List Decl) (body : Expr) :
    respan f (Form.block declarations body) = .block (respan f declarations) (respan f body) :=
  congrArg (Form.block · _) (Decl.mapSpans_eq f declarations)

theorem Form.respan_pi (kind : PiKind) (domain : Binder) (codomain : Option Expr) :
    respan f (Form.pi kind domain codomain) = .pi kind (respan f domain) (respan f codomain) :=
  congrArg _ (Expr.mapSpan?_eq f codomain)

theorem Form.respan_lambda (kind : LambdaKind) (domains : List Binder) (codomain : Option Expr)
    (body : Expr) :
    respan f (Form.lambda kind domains codomain body) =
      .lambda kind (respan f domains) (respan f codomain) (respan f body) := by
  rw [← Binder.mapSpans_eq, ← Expr.mapSpan?_eq]
  rfl

theorem Form.respan_array (sizes : List Expr) (element : Expr) :
    respan f (Form.array sizes element) = .array (respan f sizes) (respan f element) :=
  congrArg (Form.array · _) (Expr.mapSpans_eq f sizes)

theorem Form.respan_tuple (elements : List Expr) :
    respan f (Form.tuple elements) = .tuple (respan f elements) :=
  congrArg _ (Expr.mapSpans_eq f elements)

theorem Form.respan_match (scrutinee : Expr) (arms : List Arm) :
    respan f (Form.match_ scrutinee arms) = .match_ (respan f scrutinee) (respan f arms) :=
  congrArg _ (Arm.mapSpans_eq f arms)

theorem Form.respan_union (variants : List Expr) :
    respan f (Form.union variants) = .union (respan f variants) :=
  congrArg _ (Expr.mapSpans_eq f variants)

theorem Form.respan_where (body : Expr) (declarations : List Decl) :
    respan f (Form.where_ body declarations) = .where_ (respan f body) (respan f declarations) :=
  congrArg _ (Decl.mapSpans_eq f declarations)

theorem Binder.respan_tuple (bracket : Bracket) (elements : List Binder) (span : Span) :
    respan f (Binder.tuple bracket elements span) = .tuple bracket (respan f elements) (f span) :=
  congrArg (Binder.tuple _ · _) (Binder.mapSpans_eq f elements)

theorem DeclForm.respan_rec (bindings : List RecBinding) (lam : Option Lam) :
    respan f (DeclForm.rec_ bindings lam) = .rec_ (respan f bindings) (respan f lam) := by
  rw [← RecBinding.mapSpans_eq, ← Lam.mapSpan?_eq]
  rfl

theorem DeclForm.respan_rule (kind : RuleKind) (binder : Binder) (lhs : Expr)
    (guard : Option Expr) (rhs : Expr) :
    respan f (DeclForm.rule kind binder lhs guard rhs) =
      .rule kind (respan f binder) (respan f lhs) (respan f guard) (respan f rhs) := by
  rw [← Expr.mapSpan?_eq]
  rfl

theorem RecBinding.respan_mk (name : Name) (ty : Option Expr) (value : Expr) (span : Span) :
    respan f (RecBinding.mk name ty value span) =
      ⟨respan f name, respan f ty, respan f value, f span⟩ := by
  rw [← Expr.mapSpan?_eq]
  rfl

theorem Lam.respan_mk (kind : LamKind) (isExternal : Bool) (name : Name) (params : List Param)
    (codomain body : Option Expr) (span : Span) :
    respan f (Lam.mk kind isExternal name params codomain body span) =
      ⟨kind, isExternal, respan f name, respan f params, respan f codomain, respan f body,
        f span⟩ := by
  rw [← Param.mapSpans_eq, ← Expr.mapSpan?_eq, ← Expr.mapSpan?_eq]
  rfl

theorem Param.respan_mk (domain : Binder) (filter : Option Expr) (span : Span) :
    respan f (Param.mk domain filter span) = ⟨respan f domain, respan f filter, f span⟩ := by
  rw [← Expr.mapSpan?_eq]
  rfl

end Lists

instance : Spanned File where
  respan f file := ⟨respan f file.dependencies, respan f file.declarations, f file.span⟩
  respan_id file := by simp [Spanned.respan_id]

end Mim
