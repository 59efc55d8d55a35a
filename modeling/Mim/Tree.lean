import Mim.Literal
import Mim.Span
import Mim.Token

/-! # Trees

What a source text says: dependencies, declarations, expressions and binders.
Every node has the span of the text that it was read from.
-/

namespace Mim

/-- A name and where it stands. -/
structure Ident where
  name : String
  span : Span
  deriving DecidableEq

/-- One entry of a subtag list: a tag and its other names. -/
structure Subtag where
  tag : Ident
  aliases : List Ident
  span : Span
  deriving DecidableEq

/-- An annex where it is named, with its subtags in a list if they are not in the path. -/
structure Annex where
  path : AnnexPath
  subtags : List Subtag
  span : Span
  deriving DecidableEq

/-- What a form is named by. -/
inductive Name where
  | ident (ident : Ident)
  | annex (annex : Annex)
  deriving DecidableEq

namespace Name

def span : Name → Span
  | .ident i => i.span
  | .annex a => a.span

/-- The name without spans, signs and subtag lists. -/
def path : Name → String
  | .ident i => i.name
  | .annex a => a.path.text

end Name

/-- The brackets of a binder tuple. Round ones hold patterns; square and curly ones hold
    types with or without a name, and curly ones make them implicit. -/
inductive Bracket where
  | round
  | square
  | curly
  deriving DecidableEq

/-- How a function type is written. -/
inductive PiKind where
  /-- A bracketed domain and an arrow. -/
  | arrow
  /-- A continuation type. -/
  | cn
  /-- A function type, with or without a codomain. -/
  | fn
  deriving DecidableEq

inductive LambdaKind where
  | lm
  | cn
  deriving DecidableEq

inductive LamKind where
  | lam
  | con
  | fun_
  deriving DecidableEq

inductive RuleKind where
  | rule
  | norm
  deriving DecidableEq

mutual

structure Expr where
  form : Form
  span : Span

/-- The forms of an expression. -/
inductive Form where
  | primitive (ty : Primitive)
  | ident (name : String)
  | annex (path : AnnexPath)
  | literal (value : Literal)
  /-- A literal and its type. -/
  | ascribed (value : Literal) (valueSpan : Span) (ty : Expr)
  /-- Declarations in front of the expression that sees them. -/
  | block (declarations : List Decl) (body : Expr)
  | pi (kind : PiKind) (domain : Binder) (codomain : Option Expr)
  | lambda (kind : LambdaKind) (domains : List Binder) (codomain : Option Expr) (body : Expr)
  | insert (tuple index value : Expr)
  | ret (binder : Binder) (callee argument body : Expr)
  | uniq (inner : Expr)
  | array (sizes : List Expr) (element : Expr)
  | pack (shape body : Expr)
  | sigma (tuple : Binder) (label : Option Name)
  | tuple (elements : List Expr)
  | match_ (scrutinee : Expr) (arms : List Arm)
  | extraction (tuple index : Expr)
  | arrow (domain codomain : Expr)
  /-- Two variants or more. -/
  | union (variants : List Expr)
  | injection (value ty : Expr)
  | application (callee argument : Expr) (explicit : Bool)
  | where_ (body : Expr) (declarations : List Decl)
  /-- Text that is no token. -/
  | error

structure Arm where
  binder : Binder
  body : Expr
  span : Span

/-- What a value is bound to: a name, a type, or a tuple of such. -/
inductive Binder where
  | name (ident : Ident)
  | typed (ident : Ident) (ty : Expr) (span : Span)
  | type (ty : Expr)
  /-- Names that share one type; only an element of a tuple. -/
  | group (names : List Ident) (ty : Expr) (span : Span)
  | tuple (bracket : Bracket) (elements : List Binder) (span : Span)

/-- A declaration and the doc comment in front of it. -/
structure Decl where
  doc : Option String
  form : DeclForm
  span : Span

/-- The forms of a declaration. -/
inductive DeclForm where
  /-- An axiom; only one with a curry count can have a trip name. -/
  | axm (name : Annex) (ty : Expr) (normalizer : Option Ident)
    (curryAndTrip : Option (Nat × Option Ident))
  | cfun (domain : Binder) (ty : Expr)
  | ccon (domain : Binder)
  | letAnnex (target : Annex) (value : Expr)
  | let_ (target : Binder) (value : Expr)
  | rec_ (bindings : List RecBinding) (lam : Option Lam)
  | lam (lam : Lam)
  | rule (kind : RuleKind) (binder : Binder) (lhs : Expr) (guard : Option Expr) (rhs : Expr)
  /-- Text in which reading a declaration failed. -/
  | error

/-- One member of a recursive group. -/
structure RecBinding where
  name : Name
  ty : Option Expr
  value : Expr
  span : Span

structure Lam where
  kind : LamKind
  isExternal : Bool
  name : Name
  params : List Param
  codomain : Option Expr
  body : Option Expr
  span : Span

/-- A domain and the filter after it. -/
structure Param where
  domain : Binder
  filter : Option Expr
  span : Span

end

inductive DependencyKind where
  | import_
  | plugin
  deriving DecidableEq

structure Dependency where
  kind : DependencyKind
  name : Ident
  span : Span
  deriving DecidableEq

/-- A whole source text. -/
structure File where
  dependencies : List Dependency
  declarations : List Decl
  span : Span

namespace Binder

def span : Binder → Span
  | .name ident => ident.span
  | .typed _ _ span => span
  | .type ty => ty.span
  | .group _ _ span => span
  | .tuple _ _ span => span

/-- The number of binders that a tuple's element stands for. -/
def width : Binder → Nat
  | .group names _ _ => names.length
  | _ => 1

/-- The elements of a tuple. -/
def elements : Binder → List Binder
  | .tuple _ elements _ => elements
  | _ => []

/-- The number of binders in a tuple, with every name of a group counted. -/
def arity (b : Binder) : Nat := b.elements.foldr (fun e n => e.width + n) 0

/-- The names of a group, each with the type. -/
def members : Binder → List (Ident × Expr)
  | .group names ty _ => names.map (·, ty)
  | _ => []

end Binder

namespace Expr

/-- A literal with a type or without. -/
def isLiteral (e : Expr) : Bool :=
  match e.form with
  | .literal _ | .ascribed _ _ _ => true
  | _ => false

def isError (e : Expr) : Bool :=
  match e.form with
  | .error => true
  | _ => false

end Expr

namespace Decl

def isError (d : Decl) : Bool :=
  match d.form with
  | .error => true
  | _ => false

/-- The name that a declaration introduces; groups and binders introduce none of their own. -/
def name? (d : Decl) : Option String :=
  match d.form with
  | .axm name _ _ _ => some name.path.text
  | .lam lam => some lam.name.path
  | .letAnnex target _ => some target.path.text
  | _ => none

/-- The names of a recursive group, that of its function last. -/
def groupNames (d : Decl) : List Name :=
  match d.form with
  | .rec_ bindings lam => bindings.map RecBinding.name ++ (lam.map Lam.name).toList
  | _ => []

/-- The binders of a declaration itself: its domain, what it binds, or its parameters. -/
def binders (d : Decl) : List Binder :=
  match d.form with
  | .cfun domain _ => [domain]
  | .ccon domain => [domain]
  | .let_ target _ => [target]
  | .rule _ binder _ _ _ => [binder]
  | .lam lam => lam.params.map Param.domain
  | .rec_ _ (some lam) => lam.params.map Param.domain
  | _ => []

end Decl

namespace File

/-- Whether a placeholder stands among the declarations. -/
def hasErrorNodes (f : File) : Bool := f.declarations.any Decl.isError

/-- The declarations that have a doc comment, each with its text. -/
def documented (f : File) : List (Decl × String) :=
  f.declarations.filterMap fun d => d.doc.map (d, ·)

end File

end Mim
