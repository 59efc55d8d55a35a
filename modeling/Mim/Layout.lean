import Mim.Tree

/-! # Layout

Trees written back as source text. A layout is a sequence of tokens with blanks
between them. It has the parentheses of the text that the tree was read from and
no others: parentheses always make a tuple, which is a form of its own.
-/

namespace Mim

/-- One piece of a written text. -/
inductive Piece where
  | token (token : Token)
  /-- A blank. -/
  | gap
  /-- The end of a line. -/
  | line
  /-- What stands for a broken part of a tree. -/
  | placeholder
  deriving DecidableEq

namespace Piece

def text : Piece → List Char
  | .token t => t.text
  | .gap => [' ']
  | .line => ['\n']
  | .placeholder => "/* error */".toList

def word (k : Keyword) : Piece := .token (.keyword k)

def sign (s : Symbol) : Piece := .token (.symbol s)

end Piece

abbrev Layout := List Piece

namespace Layout

def text (l : Layout) : List Char := l.flatMap Piece.text

/-- Layouts with a separator between each two. -/
def join (separator : Layout) : List Layout → Layout
  | [] => []
  | [l] => l
  | l :: ls => l ++ separator ++ join separator ls

/-- Layouts with a comma between each two. -/
def commas (ls : List Layout) : Layout := join [.sign .comma, .gap] ls

/-- A token with a blank on either side. -/
def spaced (t : Token) : Layout := [.gap, .token t, .gap]

end Layout

open Layout

def Ident.layout (i : Ident) : Layout := [.token (.ident i.name)]

def Subtag.layout (t : Subtag) : Layout :=
  t.tag.layout ++ t.aliases.flatMap fun a => spaced (.symbol .assign) ++ a.layout

def Annex.layout (a : Annex) : Layout :=
  .token (.annex a.path) ::
    if a.subtags.isEmpty then []
    else .sign .leftParen :: commas (a.subtags.map Subtag.layout) ++ [.sign .rightParen]

def Name.layout : Name → Layout
  | .ident i => i.layout
  | .annex a => a.layout

def Bracket.leftSign : Bracket → Symbol
  | .round => .leftParen
  | .square => .leftBracket
  | .curly => .leftBrace

def Bracket.rightSign : Bracket → Symbol
  | .round => .rightParen
  | .square => .rightBracket
  | .curly => .rightBrace

def LamKind.keyword : LamKind → Keyword
  | .lam => .lam
  | .con => .con
  | .fun_ => .fun_

def RuleKind.keyword : RuleKind → Keyword
  | .rule => .rule
  | .norm => .norm

def LambdaKind.keyword : LambdaKind → Keyword
  | .lm => .lm
  | .cn => .cn

def PiKind.layout : PiKind → Layout
  | .arrow => []
  | .cn => [.word .cnType, .gap]
  | .fn => [.word .fnType, .gap]

/-- The lines of a doc comment. A last line with nothing in it is none. -/
def docLines : List Char → List (List Char)
  | [] => []
  | c :: cs =>
    if c = '\n' then [] :: docLines cs
    else match docLines cs with
      | [] => [[c]]
      | line :: lines => (c :: line) :: lines

/-- A doc comment, each line on a line of its own. -/
def docLayout (doc : Option String) : Layout :=
  (docLines (doc.getD "").toList).flatMap fun line =>
    [.token (.doc (String.ofList line)), .line]

mutual

def Expr.layout : Expr → Layout
  | ⟨form, _⟩ => form.layout

def Form.layout : Form → Layout
  | .primitive ty => [.token (.primitive ty)]
  | .ident name => [.token (.ident name)]
  | .annex path => [.token (.annex path)]
  | .literal value => [.token (.literal value)]
  | .ascribed value _ ty => .token (.literal value) :: spaced (.symbol .colon) ++ ty.layout
  | .block declarations body => Decl.innerLayout declarations ++ body.layout
  | .pi kind domain codomain =>
    kind.layout ++ domain.layout ++ Expr.layoutAfter (spaced (.symbol .arrow)) codomain
  | .lambda kind domains codomain body =>
    .word kind.keyword :: Binder.layoutEach domains ++
      Expr.layoutAfter (spaced (.symbol .colon)) codomain ++
      spaced (.symbol .assign) ++ body.layout
  | .insert tuple index value =>
    [.word .ins, .sign .leftParen] ++ commas [tuple.layout, index.layout, value.layout] ++
      [.sign .rightParen]
  | .ret binder callee argument body =>
    [.word .ret, .gap] ++ binder.layout ++ spaced (.symbol .assign) ++ callee.layout ++
      spaced (.symbol .dollar) ++ argument.layout ++ [.sign .semicolon, .gap] ++ body.layout
  | .uniq inner => .sign .leftUniq :: inner.layout ++ [.sign .rightUniq]
  | .array sizes element =>
    .sign .leftArray :: commas (Expr.layouts sizes) ++ [.sign .semicolon, .gap] ++
      element.layout ++ [.sign .rightArray]
  | .pack shape body =>
    .sign .leftPack :: shape.layout ++ [.sign .semicolon, .gap] ++ body.layout ++
      [.sign .rightPack]
  | .sigma tuple label =>
    tuple.layout ++ match label with
      | some name => spaced (.keyword .as_) ++ name.layout
      | none => []
  | .tuple elements =>
    .sign .leftParen :: commas (Expr.layouts elements) ++ [.sign .rightParen]
  | .match_ scrutinee arms =>
    [.word .match_, .gap] ++ scrutinee.layout ++ [.gap, .word .with_] ++
      join [.gap, .sign .pipe] (Arm.layouts arms)
  | .extraction tuple index => tuple.layout ++ .sign .hash :: index.layout
  | .arrow domain codomain => domain.layout ++ spaced (.symbol .arrow) ++ codomain.layout
  | .union variants => join (spaced (.symbol .union)) (Expr.layouts variants)
  | .injection value ty => value.layout ++ spaced (.keyword .inj) ++ ty.layout
  | .application callee argument explicit =>
    callee.layout ++ (if explicit then spaced (.symbol .atSign) else [.gap]) ++ argument.layout
  | .where_ body declarations =>
    body.layout ++ spaced (.keyword .where_) ++ Decl.innerLayout declarations ++ [.word .end_]
  | .error => [.placeholder]

def Expr.layouts : List Expr → List Layout
  | [] => []
  | e :: es => e.layout :: Expr.layouts es

/-- An expression that may be there, after what introduces it. -/
def Expr.layoutAfter (lead : Layout) : Option Expr → Layout
  | none => []
  | some e => lead ++ e.layout

/-- Arms, each after a blank. -/
def Arm.layouts : List Arm → List Layout
  | [] => []
  | ⟨binder, body, _⟩ :: arms =>
    (.gap :: binder.layout ++ spaced (.symbol .fatArrow) ++ body.layout) :: Arm.layouts arms

def Binder.layout : Binder → Layout
  | .name ident => ident.layout
  | .typed ident ty _ => ident.layout ++ [.sign .colon, .gap] ++ ty.layout
  | .type ty => ty.layout
  | .group names ty _ =>
    join [.gap] (names.map Ident.layout) ++ [.sign .colon, .gap] ++ ty.layout
  | .tuple bracket elements _ =>
    .sign bracket.leftSign :: commas (Binder.layouts elements) ++ [.sign bracket.rightSign]

def Binder.layouts : List Binder → List Layout
  | [] => []
  | b :: bs => b.layout :: Binder.layouts bs

/-- Binders, each after a blank. -/
def Binder.layoutEach : List Binder → Layout
  | [] => []
  | b :: bs => .gap :: b.layout ++ Binder.layoutEach bs

def Decl.layout : Decl → Layout
  | ⟨doc, form, _⟩ => docLayout doc ++ form.layout

/-- Declarations inside an expression, each closed by a semicolon. -/
def Decl.innerLayout : List Decl → Layout
  | [] => []
  | d :: ds => d.layout ++ [.sign .semicolon, .gap] ++ Decl.innerLayout ds

def DeclForm.layout : DeclForm → Layout
  | .axm name ty normalizer curryAndTrip =>
    [.word .axm, .gap] ++ name.layout ++ spaced (.symbol .colon) ++ ty.layout ++
      axmOptions normalizer curryAndTrip
  | .cfun domain ty =>
    [.word .cfun, .gap] ++ domain.layout ++ spaced (.symbol .colon) ++ ty.layout
  | .ccon domain => [.word .ccon, .gap] ++ domain.layout
  | .letAnnex target value =>
    [.word .let_, .gap] ++ target.layout ++ spaced (.symbol .assign) ++ value.layout
  | .let_ target value =>
    [.word .let_, .gap] ++ target.layout ++ spaced (.symbol .assign) ++ value.layout
  | .rec_ bindings lam =>
    [.word .rec_, .gap] ++ join (spaced (.keyword .and_)) (RecBinding.layouts bindings) ++
      Lam.layoutAfter (spaced (.keyword .and_)) lam
  | .lam lam => lam.layout
  | .rule kind binder lhs guard rhs =>
    [.word kind.keyword, .gap] ++ binder.layout ++ spaced (.symbol .colon) ++ lhs.layout ++
      Expr.layoutAfter (spaced (.keyword .when_)) guard ++ spaced (.symbol .fatArrow) ++
      rhs.layout
  | .error => [.placeholder]
where
  axmOptions (normalizer : Option Ident) (curryAndTrip : Option (Nat × Option Ident)) : Layout :=
    let name := fun (i : Ident) => [.sign .comma, .gap] ++ i.layout
    let count := fun (n : Nat) => [.sign .comma, .gap, .token (.literal (.int n))]
    normalizer.elim [] name ++ curryAndTrip.elim [] fun (n, trip) => count n ++ trip.elim [] name

def RecBinding.layouts : List RecBinding → List Layout
  | [] => []
  | ⟨name, ty, value, _⟩ :: bindings =>
    (name.layout ++ Expr.layoutAfter (spaced (.symbol .colon)) ty ++ spaced (.symbol .assign) ++
      value.layout) :: RecBinding.layouts bindings

def Lam.layout : Lam → Layout
  | ⟨kind, isExternal, name, params, codomain, body, _⟩ =>
    .word kind.keyword :: (if isExternal then [.gap, .word .external] else []) ++
      .gap :: name.layout ++ Param.layoutEach params ++
      Expr.layoutAfter (spaced (.symbol .colon)) codomain ++
      Expr.layoutAfter (spaced (.symbol .assign)) body

/-- A function that may be there, after what introduces it. -/
def Lam.layoutAfter (lead : Layout) : Option Lam → Layout
  | none => []
  | some l => lead ++ l.layout

/-- Parameters, each after a blank. -/
def Param.layoutEach : List Param → Layout
  | [] => []
  | ⟨domain, filter, _⟩ :: ps =>
    .gap :: domain.layout ++ Expr.layoutAfter (spaced (.symbol .atSign)) filter ++
      Param.layoutEach ps

end

def DependencyKind.keyword : DependencyKind → Keyword
  | .import_ => .import_
  | .plugin => .plugin

def Dependency.layout (d : Dependency) : Layout :=
  [.word d.kind.keyword, .gap] ++ d.name.layout ++ [.sign .semicolon]

/-- Each dependency and each declaration ends a line, and an empty line divides them. -/
def File.layout (f : File) : Layout :=
  let divider := if f.dependencies.isEmpty || f.declarations.isEmpty then [] else [.line]
  (f.dependencies.flatMap fun d => d.layout ++ [.line]) ++ divider ++
    f.declarations.flatMap fun d => d.layout ++ [.sign .semicolon, .line]

def Expr.text (e : Expr) : String := String.ofList e.layout.text

def Name.text (n : Name) : String := String.ofList n.layout.text

def File.text (f : File) : String := String.ofList f.layout.text

end Mim
