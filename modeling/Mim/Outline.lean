import Mim.Tree

/-! # Outlines

A tree as plain records, variants and lists, with the names that its text forms
use. Binders stand in slots: a slot that takes several families of binders says
which family stands in it.
-/

namespace Mim

mutual

inductive Outline where
  | record (name : String) (fields : List Field)
  /-- A variant that is only a name. -/
  | bare (name : String)
  /-- A variant with one value. -/
  | variant (name : String) (value : Outline)
  | absent
  | present (value : Outline)
  | list (items : List Outline)
  | text (value : String)
  | char (value : Char)
  /-- An integer of the language. -/
  | int (value : Int)
  /-- A count or an offset. -/
  | nat (value : Nat)
  | float (value : Binary64)
  | flag (value : Bool)

structure Field where
  name : String
  value : Outline

end

namespace Outline

def option (f : α → Outline) : Option α → Outline
  | none => .absent
  | some a => .present (f a)

def span (s : Span) : Outline := .record "Span" [⟨"start", .nat s.start⟩, ⟨"end", .nat s.stop⟩]

/-- A record that ends in a span. -/
def node (name : String) (fields : List Field) (s : Span) : Outline :=
  .record name (fields ++ [⟨"span", span s⟩])

/-- What a variant holds. -/
def payload : Outline → Outline
  | .variant _ value => value
  | o => o

end Outline

open Outline

def Ident.outline (i : Ident) : Outline := node "Ident" [⟨"name", .text i.name⟩] i.span

def Subtag.outline (t : Subtag) : Outline :=
  node "AnnexSubtag"
    [⟨"tag", t.tag.outline⟩, ⟨"aliases", .list (t.aliases.map Ident.outline)⟩] t.span

def Annex.outline (a : Annex) : Outline :=
  node "AnnexName"
    [⟨"module", .text a.path.qualifier⟩, ⟨"name", .text a.path.name⟩,
      ⟨"subtag", option .text a.path.subtag⟩, ⟨"subtags", .list (a.subtags.map Subtag.outline)⟩]
    a.span

def Name.outline : Name → Outline
  | .ident i => .variant "Ident" i.outline
  | .annex a => .variant "Annex" a.outline

def Literal.outline : Literal → Outline
  | .bool value => .variant "Bool" (.flag value)
  | .int value => .variant "Int" (.int value)
  | .float value => .variant "Float" (.float value)
  | .string value => .variant "String" (.text value)
  | .char value => .variant "Char" (.char value)

def literalNode (value : Literal) (s : Span) : Outline :=
  node "LiteralExpr" [⟨"value", value.outline⟩] s

def Primitive.outline : Primitive → Outline
  | .univ => .bare "Univ"
  | .type => .bare "Type"
  | .nat => .bare "Nat"
  | .idx => .bare "Idx"
  | .bool => .bare "Bool"
  | .i1 => .bare "I1"
  | .i8 => .bare "I8"
  | .i16 => .bare "I16"
  | .i32 => .bare "I32"
  | .i64 => .bare "I64"
  | .star => .bare "Star"
  | .box => .bare "Box"
  | .bot => .bare "Bot"
  | .top => .bare "Top"

def PiKind.outline : PiKind → Outline
  | .arrow => .bare "Arrow"
  | .cn => .bare "Cn"
  | .fn => .bare "Fn"

def LambdaKind.outline : LambdaKind → Outline
  | .lm => .bare "Lm"
  | .cn => .bare "Cn"

def LamKind.outline : LamKind → Outline
  | .lam => .bare "Lam"
  | .con => .bare "Con"
  | .fun_ => .bare "Fun"

def RuleKind.outline : RuleKind → Outline
  | .rule => .bare "Rule"
  | .norm => .bare "Norm"

/-- A binder in a slot for all families. A name with a type counts as a pattern. -/
def Binder.inSlot (b : Binder) (o : Outline) : Outline :=
  match b with
  | .type _ | .tuple .square _ _ => .variant "Battern" o
  | .tuple .curly _ _ => .variant "Implicit" o
  | _ => .variant "Pattern" o

/-- A binder in the domain of a function type, where a name with a type counts as a
    battern. -/
def Binder.inTypeSlot (b : Binder) (o : Outline) : Outline :=
  match b with
  | .tuple .curly _ _ => .variant "Implicit" o
  | _ => .variant "Battern" o

/-- A binder as an element of a tuple. -/
def Binder.inTuple (b : Binder) (o : Outline) : Outline :=
  match b with
  | .group _ _ _ => .variant "Group" o
  | _ => .variant "Binder" o

mutual

def Expr.outline : Expr → Outline
  | ⟨form, span⟩ => form.outline span

def Form.outline (s : Span) : Form → Outline
  | .primitive ty => .variant "Primitive" (node "PrimitiveExpr" [⟨"kind", ty.outline⟩] s)
  | .ident name => .variant "Identifier" (Ident.outline ⟨name, s⟩)
  | .annex path => .variant "Annex" (Annex.outline ⟨path, [], s⟩)
  | .literal value => .variant "Literal" (literalNode value s)
  | .ascribed value valueSpan ty =>
    .variant "Annotated" <| node "AnnotatedExpr"
      [⟨"value", literalNode value valueSpan⟩, ⟨"ty", ty.outline⟩] s
  | .block declarations body =>
    .variant "Declarations" <| node "DeclExpr"
      [⟨"declarations", .list (Decl.outlines declarations)⟩, ⟨"body", body.outline⟩] s
  | .pi kind domain codomain =>
    .variant "Pi" <| node "PiExpr"
      [⟨"kind", kind.outline⟩, ⟨"domain", domain.inTypeSlot domain.outline⟩,
        ⟨"codomain", Expr.outline? codomain⟩] s
  | .lambda kind domains codomain body =>
    .variant "Lambda" <| node "LambdaExpr"
      [⟨"kind", kind.outline⟩, ⟨"domains", .list (Binder.slotOutlines domains)⟩,
        ⟨"codomain", Expr.outline? codomain⟩, ⟨"body", body.outline⟩] s
  | .insert tuple index value =>
    .variant "Insert" <| node "InsertExpr"
      [⟨"tuple", tuple.outline⟩, ⟨"index", index.outline⟩, ⟨"value", value.outline⟩] s
  | .ret binder callee argument body =>
    .variant "Ret" <| node "RetExpr"
      [⟨"binder", binder.inSlot binder.outline⟩, ⟨"callee", callee.outline⟩,
        ⟨"argument", argument.outline⟩, ⟨"body", body.outline⟩] s
  | .uniq inner => .variant "Uniq" (node "UniqExpr" [⟨"inner", inner.outline⟩] s)
  | .array sizes element =>
    .variant "Array" <| node "ArrayExpr"
      [⟨"sizes", .list (Expr.outlines sizes)⟩, ⟨"element", element.outline⟩] s
  | .pack shape body =>
    .variant "Pack" (node "PackExpr" [⟨"shape", shape.outline⟩, ⟨"body", body.outline⟩] s)
  | .sigma tuple label =>
    .variant "Sigma" <| node "SigmaExpr"
      [⟨"tuple", tuple.outline.payload⟩, ⟨"alias", option Name.outline label⟩] s
  | .tuple elements =>
    .variant "Tuple" (node "TupleExpr" [⟨"elements", .list (Expr.outlines elements)⟩] s)
  | .match_ scrutinee arms =>
    .variant "Match" <| node "MatchExpr"
      [⟨"scrutinee", scrutinee.outline⟩, ⟨"arms", .list (Arm.outlines arms)⟩] s
  | .extraction tuple index =>
    .variant "Extraction" <| node "ExtractionExpr"
      [⟨"tuple", tuple.outline⟩, ⟨"index", index.outline⟩] s
  | .arrow domain codomain =>
    .variant "Arrow" <| node "ArrowExpr"
      [⟨"domain", domain.outline⟩, ⟨"codomain", codomain.outline⟩] s
  | .union variants =>
    .variant "Union" (node "UnionExpr" [⟨"variants", .list (Expr.outlines variants)⟩] s)
  | .injection value ty =>
    .variant "Injection" <| node "InjectionExpr"
      [⟨"value", value.outline⟩, ⟨"ty", ty.outline⟩] s
  | .application callee argument explicit =>
    .variant "Application" <| node "ApplicationExpr"
      [⟨"callee", callee.outline⟩, ⟨"argument", argument.outline⟩,
        ⟨"explicit", .flag explicit⟩] s
  | .where_ body declarations =>
    .variant "Where" <| node "WhereExpr"
      [⟨"body", body.outline⟩, ⟨"declarations", .list (Decl.outlines declarations)⟩] s
  | .error => .variant "Error" (span s)

def Expr.outlines : List Expr → List Outline
  | [] => []
  | e :: es => e.outline :: Expr.outlines es

def Expr.outline? : Option Expr → Outline
  | none => .absent
  | some e => .present e.outline

def Arm.outlines : List Arm → List Outline
  | [] => []
  | ⟨binder, body, s⟩ :: arms =>
    node "MatchArm" [⟨"binder", binder.inSlot binder.outline⟩, ⟨"body", body.outline⟩] s ::
      Arm.outlines arms

/-- A binder by itself. Braces have a record of their own, other tuples share one. -/
def Binder.outline : Binder → Outline
  | .name ident => .variant "Identifier" ident.outline
  | .typed ident ty s =>
    .variant "Typed" (node "TypedBinder" [⟨"name", ident.outline⟩, ⟨"ty", ty.outline⟩] s)
  | .type ty => .variant "Type" ty.outline
  | .group names ty s =>
    node "Group" [⟨"names", .list (names.map Ident.outline)⟩, ⟨"ty", ty.outline⟩] s
  | .tuple .curly elements s =>
    node "Implicit" [⟨"elements", .list (Binder.elementOutlines elements)⟩] s
  | .tuple _ elements s =>
    .variant "Tuple" <| node "BinderTuple"
      [⟨"elements", .list (Binder.elementOutlines elements)⟩] s

def Binder.elementOutlines : List Binder → List Outline
  | [] => []
  | b :: bs => b.inTuple b.outline :: Binder.elementOutlines bs

def Binder.slotOutlines : List Binder → List Outline
  | [] => []
  | b :: bs => b.inSlot b.outline :: Binder.slotOutlines bs

def Decl.outline : Decl → Outline
  | ⟨doc, form, s⟩ =>
    node "Declaration" [⟨"doc", option .text doc⟩, ⟨"kind", form.outline s⟩] s

def Decl.outlines : List Decl → List Outline
  | [] => []
  | d :: ds => d.outline :: Decl.outlines ds

def DeclForm.outline (s : Span) : DeclForm → Outline
  | .axm name ty normalizer curryAndTrip =>
    .variant "Axiom" <| node "AxiomDecl"
      [⟨"name", name.outline⟩, ⟨"ty", ty.outline⟩,
        ⟨"normalizer", option Ident.outline normalizer⟩,
        ⟨"curry", option .nat (curryAndTrip.map Prod.fst)⟩,
        ⟨"trip", option Ident.outline (curryAndTrip.bind Prod.snd)⟩] s
  | .cfun domain ty =>
    .variant "Cfun" (node "CfunDecl" [⟨"domain", domain.outline⟩, ⟨"ty", ty.outline⟩] s)
  | .ccon domain => .variant "Ccon" (node "CconDecl" [⟨"domain", domain.outline⟩] s)
  | .letAnnex target value =>
    .variant "Let" <| node "LetDecl"
      [⟨"target", .variant "Annex" target.outline⟩, ⟨"value", value.outline⟩] s
  | .let_ target value =>
    .variant "Let" <| node "LetDecl"
      [⟨"target", .variant "Binder" (target.inSlot target.outline)⟩,
        ⟨"value", value.outline⟩] s
  | .rec_ bindings lam =>
    .variant "Rec" <| node "RecDecl"
      [⟨"bindings", .list (RecBinding.outlines bindings)⟩, ⟨"lam", Lam.outline? lam⟩] s
  | .lam lam => .variant "Lam" lam.outline
  | .rule kind binder lhs guard rhs =>
    .variant "Rule" <| node "RuleDecl"
      [⟨"kind", kind.outline⟩, ⟨"binder", binder.inSlot binder.outline⟩, ⟨"lhs", lhs.outline⟩,
        ⟨"guard", Expr.outline? guard⟩, ⟨"rhs", rhs.outline⟩] s
  | .error => .bare "Error"

def RecBinding.outlines : List RecBinding → List Outline
  | [] => []
  | ⟨name, ty, value, s⟩ :: bindings =>
    node "RecBinding"
      [⟨"name", name.outline⟩, ⟨"ty", Expr.outline? ty⟩, ⟨"value", value.outline⟩] s ::
      RecBinding.outlines bindings

def Lam.outline : Lam → Outline
  | ⟨kind, isExternal, name, params, codomain, body, s⟩ =>
    node "LamDecl"
      [⟨"kind", kind.outline⟩, ⟨"is_extern", .flag isExternal⟩, ⟨"name", name.outline⟩,
        ⟨"params", .list (Param.outlines params)⟩, ⟨"codomain", Expr.outline? codomain⟩,
        ⟨"body", Expr.outline? body⟩] s

def Lam.outline? : Option Lam → Outline
  | none => .absent
  | some l => .present l.outline

def Param.outlines : List Param → List Outline
  | [] => []
  | ⟨domain, filter, s⟩ :: ps =>
    node "LamParam"
      [⟨"domain", domain.inSlot domain.outline⟩, ⟨"filter", Expr.outline? filter⟩] s ::
      Param.outlines ps

end

def DependencyKind.outline : DependencyKind → Outline
  | .import_ => .bare "Import"
  | .plugin => .bare "Plugin"

def Dependency.outline (d : Dependency) : Outline :=
  node "Dependency" [⟨"kind", d.kind.outline⟩, ⟨"name", d.name.outline⟩] d.span

def File.outline (f : File) : Outline :=
  node "SourceFile"
    [⟨"dependencies", .list (f.dependencies.map Dependency.outline)⟩,
      ⟨"declarations", .list (Decl.outlines f.declarations)⟩] f.span

end Mim
