import Mim.Tree

/-! # Trees as nodes

What every kind of tree has in common: a span, and nodes inside it in the order of the
source. Names, binders, arms and placeholders are nodes as well as expressions and
declarations.
-/

namespace Mim

/-- A part of a tree: its span, the expression or declaration that it is, if it is one, and
    the parts that it has itself. -/
inductive Node where
  | mk (span : Span) (tree? : Option (Expr ⊕ Decl)) (children : List Node)

/-- A form that is no placeholder for broken text. -/
def Form.isWhole : Form → Bool
  | .error => false
  | _ => true

/-- A form that is no placeholder for a broken declaration. -/
def DeclForm.isWhole : DeclForm → Bool
  | .error => false
  | _ => true

namespace Node

def span : Node → Span
  | ⟨span, _, _⟩ => span

def expr? : Node → Option Expr
  | ⟨_, some (.inl e), _⟩ => some e
  | _ => none

def decl? : Node → Option Decl
  | ⟨_, some (.inr d), _⟩ => some d
  | _ => none

/-- A node that stands for something broken. -/
def isPlaceholder : Node → Bool
  | ⟨_, some (.inl e), _⟩ => !e.form.isWhole
  | ⟨_, some (.inr d), _⟩ => !d.form.isWhole
  | _ => false

def children : Node → List Node
  | ⟨_, _, children⟩ => children

/-- A node that is only a place. -/
def leaf (span : Span) : Node := ⟨span, none, []⟩

mutual

/-- A node and all that are in it. -/
def all : Node → List Node
  | ⟨span, tree?, children⟩ => ⟨span, tree?, children⟩ :: allEach children

def allEach : List Node → List Node
  | [] => []
  | n :: ns => n.all ++ allEach ns

end

theorem all_eq (n : Node) : n.all = n :: allEach n.children := by
  cases n
  rw [all]
  rfl

theorem allEach_eq (ns : List Node) : allEach ns = ns.flatMap all := by
  induction ns with
  | nil => rfl
  | cons n ns ih => rw [allEach, ih, List.flatMap_cons]

/-- None of the nodes is a placeholder, and none that are in them. -/
def AllWhole (ns : List Node) : Prop := ∀ n ∈ allEach ns, n.isPlaceholder = false

@[simp] theorem allWhole_nil : AllWhole [] := fun _ h => nomatch h

@[simp] theorem allWhole_cons (n : Node) (ns : List Node) :
    AllWhole (n :: ns) ↔ (n.isPlaceholder = false ∧ AllWhole n.children) ∧ AllWhole ns := by
  unfold AllWhole
  rw [allEach, all_eq, List.forall_mem_append, List.forall_mem_cons]

@[simp] theorem allWhole_leaf (place : Span) : AllWhole [leaf place] := by
  simp [leaf, isPlaceholder, children]

@[simp] theorem allWhole_append (ns ms : List Node) :
    AllWhole (ns ++ ms) ↔ AllWhole ns ∧ AllWhole ms := by
  unfold AllWhole
  rw [allEach_eq, allEach_eq, allEach_eq, List.flatMap_append, List.forall_mem_append]

theorem allWhole_head (n : Node) (ns : List Node) : AllWhole (n :: ns) ↔ AllWhole [n] ∧ AllWhole ns :=
  allWhole_append [n] ns

theorem allWhole_pair (n m : Node) (ns : List Node) :
    AllWhole (n :: m :: ns) ↔ AllWhole [n] ∧ AllWhole (m :: ns) := allWhole_head n (m :: ns)

theorem allWhole_mk (place : Span) (ns : List Node) : AllWhole [⟨place, none, ns⟩] ↔ AllWhole ns := by
  rw [allWhole_cons, and_iff_left allWhole_nil]
  exact and_iff_right rfl

end Node

/-- What a tree has nodes for. -/
class Noded (α : Type) where
  nodes : α → List Node
  /-- It is no placeholder itself, apart from its nodes. -/
  isWhole : α → Bool := fun _ => true

export Noded (nodes isWhole)

/-- What is no placeholder itself and has these nodes. -/
structure Noded.Made {α : Type} [Noded α] (a : α) (ns : List Node) : Prop where
  whole : isWhole a
  nodes : nodes a = ns

section Instances

variable {α β : Type}

/-- A type without nodes. -/
@[reducible]
def Noded.plain : Noded α where
  nodes _ := []

instance : Noded Unit := Noded.plain
instance : Noded Bool := Noded.plain
instance : Noded Nat := Noded.plain
instance : Noded Span := Noded.plain
instance : Noded AnnexPath := Noded.plain
instance : Noded LamKind := Noded.plain
instance : Noded RuleKind := Noded.plain
instance : Noded DependencyKind := Noded.plain

instance [Noded α] : Noded (Option α) where
  nodes a := a.elim [] nodes

instance [Noded α] : Noded (List α) where
  nodes as := as.flatMap nodes

instance [Noded α] [Noded β] : Noded (α × β) where
  nodes p := nodes p.1 ++ nodes p.2

instance : Noded Ident where
  nodes i := [.leaf i.span]

instance : Noded Subtag where
  nodes t := [⟨t.span, none, nodes t.tag ++ nodes t.aliases⟩]

instance : Noded Annex where
  nodes a := [⟨a.span, none, nodes a.subtags⟩]

instance : Noded Name where
  nodes
    | .ident i => nodes i
    | .annex a => nodes a

instance : Noded Dependency where
  nodes d := [⟨d.span, none, nodes d.name⟩]

variable [Noded α] [Noded β]

@[simp] theorem nodes_none : nodes (none : Option α) = [] := rfl

@[simp] theorem nodes_some (a : α) : nodes (some a) = nodes a := rfl

@[simp] theorem nodes_nil : nodes ([] : List α) = [] := rfl

@[simp] theorem nodes_cons (a : α) (as : List α) : nodes (a :: as) = nodes a ++ nodes as := rfl

@[simp] theorem nodes_prod (p : α × β) : nodes p = nodes p.1 ++ nodes p.2 := rfl

@[simp] theorem nodes_unit (u : Unit) : nodes u = [] := rfl

@[simp] theorem nodes_bool (b : Bool) : nodes b = [] := rfl

@[simp] theorem nodes_lamKind (kind : LamKind) : nodes kind = [] := rfl

end Instances

/-- A kind of tree that has no placeholders. -/
class Noded.IsIntact (α : Type) [Noded α] : Prop where
  whole (a : α) : Node.AllWhole (nodes a)

@[simp] theorem Noded.allWhole {α : Type} [Noded α] [IsIntact α] (a : α) : Node.AllWhole (nodes a) :=
  IsIntact.whole a

section Intact

variable {α β : Type} [Noded α] [Noded β] [Noded.IsIntact α] [Noded.IsIntact β]

instance : Noded.IsIntact Nat := ⟨fun _ => Node.allWhole_nil⟩
instance : Noded.IsIntact Ident := ⟨fun _ => Node.allWhole_leaf _⟩

instance : Noded.IsIntact (Option α) where
  whole
    | none => Node.allWhole_nil
    | some a => Noded.allWhole a

instance : Noded.IsIntact (List α) where
  whole as := by
    induction as with
    | nil => exact Node.allWhole_nil
    | cons a as ih => exact (Node.allWhole_append _ _).2 ⟨Noded.allWhole a, ih⟩

instance : Noded.IsIntact (α × β) where
  whole p := (Node.allWhole_append _ _).2 ⟨Noded.allWhole p.1, Noded.allWhole p.2⟩

instance : Noded.IsIntact Subtag where
  whole t := (Node.allWhole_cons _ _).2 ⟨⟨rfl, Noded.allWhole (t.tag, t.aliases)⟩, Node.allWhole_nil⟩

instance : Noded.IsIntact Annex where
  whole a := (Node.allWhole_cons _ _).2 ⟨⟨rfl, Noded.allWhole a.subtags⟩, Node.allWhole_nil⟩

instance : Noded.IsIntact Name where
  whole
    | .ident i => Noded.allWhole i
    | .annex a => Noded.allWhole a

instance : Noded.IsIntact Dependency where
  whole d := (Node.allWhole_cons _ _).2 ⟨⟨rfl, Noded.allWhole d.name⟩, Node.allWhole_nil⟩

end Intact

mutual

def Expr.node : Expr → Node
  | ⟨form, span⟩ => ⟨span, some (.inl ⟨form, span⟩), form.parts⟩

/-- The nodes directly inside an expression. -/
def Form.parts : Form → List Node
  | .primitive _ | .ident _ | .annex _ | .literal _ | .error => []
  | .ascribed _ valueSpan ty => [.leaf valueSpan, ty.node]
  | .block declarations body => Decl.nodesEach declarations ++ [body.node]
  | .pi _ domain codomain => domain.parts ++ Expr.node? codomain
  | .lambda _ domains codomain body =>
    Binder.partsEach domains ++ Expr.node? codomain ++ [body.node]
  | .insert tuple index value => [tuple.node, index.node, value.node]
  | .ret binder callee argument body =>
    binder.parts ++ [callee.node, argument.node, body.node]
  | .uniq inner => [inner.node]
  | .array sizes element => Expr.nodesEach sizes ++ [element.node]
  | .pack shape body => [shape.node, body.node]
  | .sigma tuple label => tuple.parts ++ nodes label
  | .tuple elements => Expr.nodesEach elements
  | .match_ scrutinee arms => scrutinee.node :: Arm.nodesEach arms
  | .extraction tuple index => [tuple.node, index.node]
  | .arrow domain codomain => [domain.node, codomain.node]
  | .union variants => Expr.nodesEach variants
  | .injection value ty => [value.node, ty.node]
  | .application callee argument _ => [callee.node, argument.node]
  | .where_ body declarations => body.node :: Decl.nodesEach declarations

def Expr.nodesEach : List Expr → List Node
  | [] => []
  | e :: es => e.node :: Expr.nodesEach es

def Expr.node? : Option Expr → List Node
  | none => []
  | some e => [e.node]

def Arm.node : Arm → Node
  | ⟨binder, body, span⟩ => ⟨span, none, binder.parts ++ [body.node]⟩

def Arm.nodesEach : List Arm → List Node
  | [] => []
  | a :: as => a.node :: Arm.nodesEach as

/-- The one node of a binder, which for a mere type is that of the type. -/
def Binder.parts : Binder → List Node
  | .name ident => nodes ident
  | .typed ident ty span => [⟨span, none, nodes ident ++ [ty.node]⟩]
  | .type ty => [ty.node]
  | .group names ty span => [⟨span, none, nodes names ++ [ty.node]⟩]
  | .tuple _ elements span => [⟨span, none, Binder.partsEach elements⟩]

def Binder.partsEach : List Binder → List Node
  | [] => []
  | b :: bs => b.parts ++ Binder.partsEach bs

def Decl.node : Decl → Node
  | ⟨doc, form, span⟩ => ⟨span, some (.inr ⟨doc, form, span⟩), form.parts⟩

def Decl.nodesEach : List Decl → List Node
  | [] => []
  | d :: ds => d.node :: Decl.nodesEach ds

/-- The nodes directly inside a declaration. -/
def DeclForm.parts : DeclForm → List Node
  | .axm name ty normalizer curryAndTrip =>
    nodes name ++ [ty.node] ++ nodes normalizer ++ nodes curryAndTrip
  | .cfun domain ty => domain.parts ++ [ty.node]
  | .ccon domain => domain.parts
  | .letAnnex target value => nodes target ++ [value.node]
  | .let_ target value => target.parts ++ [value.node]
  | .rec_ bindings lam => RecBinding.nodesEach bindings ++ Lam.node? lam
  | .lam lam => [lam.node]
  | .rule _ binder lhs guard rhs => binder.parts ++ [lhs.node] ++ Expr.node? guard ++ [rhs.node]
  | .error => []

def RecBinding.node : RecBinding → Node
  | ⟨name, ty, value, span⟩ => ⟨span, none, nodes name ++ Expr.node? ty ++ [value.node]⟩

def RecBinding.nodesEach : List RecBinding → List Node
  | [] => []
  | b :: bs => b.node :: RecBinding.nodesEach bs

def Lam.node : Lam → Node
  | ⟨_, _, name, params, codomain, body, span⟩ =>
    ⟨span, none, nodes name ++ Param.nodesEach params ++ Expr.node? codomain ++ Expr.node? body⟩

def Lam.node? : Option Lam → List Node
  | none => []
  | some l => [l.node]

def Param.node : Param → Node
  | ⟨domain, filter, span⟩ => ⟨span, none, domain.parts ++ Expr.node? filter⟩

def Param.nodesEach : List Param → List Node
  | [] => []
  | p :: ps => p.node :: Param.nodesEach ps

end

/-! Lists and options inside a tree have the nodes of any others. -/

instance : Noded Expr where
  nodes e := [e.node]

instance : Noded Form where
  nodes := Form.parts
  isWhole := Form.isWhole

instance : Noded Arm where
  nodes a := [a.node]

instance : Noded Binder where
  nodes := Binder.parts

instance : Noded Decl where
  nodes d := [d.node]

instance : Noded DeclForm where
  nodes := DeclForm.parts
  isWhole := DeclForm.isWhole

instance : Noded RecBinding where
  nodes b := [b.node]

instance : Noded Lam where
  nodes l := [l.node]

instance : Noded Param where
  nodes p := [p.node]

section Lists

@[simp] theorem Expr.nodesEach_eq (es : List Expr) : Expr.nodesEach es = nodes es := by
  induction es with
  | nil => rfl
  | cons e es ih => exact congrArg _ ih

@[simp] theorem Expr.node?_eq (e : Option Expr) : Expr.node? e = nodes e := by
  cases e <;> rfl

@[simp] theorem Arm.nodesEach_eq (as : List Arm) : Arm.nodesEach as = nodes as := by
  induction as with
  | nil => rfl
  | cons a as ih => exact congrArg _ ih

@[simp] theorem Binder.partsEach_eq (bs : List Binder) : Binder.partsEach bs = nodes bs := by
  induction bs with
  | nil => rfl
  | cons b bs ih => exact congrArg _ ih

@[simp] theorem Decl.nodesEach_eq (ds : List Decl) : Decl.nodesEach ds = nodes ds := by
  induction ds with
  | nil => rfl
  | cons d ds ih => exact congrArg _ ih

@[simp] theorem RecBinding.nodesEach_eq (bs : List RecBinding) :
    RecBinding.nodesEach bs = nodes bs := by
  induction bs with
  | nil => rfl
  | cons b bs ih => exact congrArg _ ih

@[simp] theorem Lam.node?_eq (l : Option Lam) : Lam.node? l = nodes l := by
  cases l <;> rfl

@[simp] theorem Param.nodesEach_eq (ps : List Param) : Param.nodesEach ps = nodes ps := by
  induction ps with
  | nil => rfl
  | cons p ps ih => exact congrArg _ ih

end Lists

/-! What the parts of a form are, where lists or options are among them. -/

section Parts

@[simp] theorem nodes_expr (e : Expr) : nodes e = [e.node] := rfl

@[simp] theorem nodes_block (declarations : List Decl) (body : Expr) :
    nodes (Form.block declarations body) = nodes declarations ++ [body.node] :=
  congrArg (· ++ _) (Decl.nodesEach_eq declarations)

@[simp] theorem nodes_pi (kind : PiKind) (domain : Binder) (codomain : Option Expr) :
    nodes (Form.pi kind domain codomain) = nodes domain ++ nodes codomain :=
  congrArg (_ ++ ·) (Expr.node?_eq codomain)

@[simp] theorem nodes_lambda (kind : LambdaKind) (domains : List Binder) (codomain : Option Expr)
    (body : Expr) : nodes (Form.lambda kind domains codomain body) =
      nodes domains ++ nodes codomain ++ [body.node] := by
  rw [← Binder.partsEach_eq, ← Expr.node?_eq]
  rfl

@[simp] theorem nodes_ret (binder : Binder) (callee argument body : Expr) :
    nodes (Form.ret binder callee argument body) =
      nodes binder ++ [callee.node, argument.node, body.node] := rfl

@[simp] theorem nodes_insert (tuple index value : Expr) :
    nodes (Form.insert tuple index value) = [tuple.node, index.node, value.node] := rfl

@[simp] theorem nodes_uniq (inner : Expr) : nodes (Form.uniq inner) = [inner.node] := rfl

@[simp] theorem nodes_array (sizes : List Expr) (element : Expr) :
    nodes (Form.array sizes element) = nodes sizes ++ [element.node] :=
  congrArg (· ++ _) (Expr.nodesEach_eq sizes)

@[simp] theorem nodes_pack (shape body : Expr) :
    nodes (Form.pack shape body) = [shape.node, body.node] := rfl

@[simp] theorem nodes_sigma (tuple : Binder) (label : Option Name) :
    nodes (Form.sigma tuple label) = nodes tuple ++ nodes label := rfl

@[simp] theorem nodes_tuple (elements : List Expr) : nodes (Form.tuple elements) = nodes elements :=
  Expr.nodesEach_eq elements

@[simp] theorem nodes_match (scrutinee : Expr) (arms : List Arm) :
    nodes (Form.match_ scrutinee arms) = scrutinee.node :: nodes arms :=
  congrArg _ (Arm.nodesEach_eq arms)

@[simp] theorem nodes_union (variants : List Expr) : nodes (Form.union variants) = nodes variants :=
  Expr.nodesEach_eq variants

@[simp] theorem nodes_where (body : Expr) (declarations : List Decl) :
    nodes (Form.where_ body declarations) = body.node :: nodes declarations :=
  congrArg _ (Decl.nodesEach_eq declarations)

@[simp] theorem nodes_arm (binder : Binder) (body : Expr) (place : Span) :
    nodes (Arm.mk binder body place) = [⟨place, none, nodes binder ++ [body.node]⟩] := rfl

@[simp] theorem nodes_elements (bracket : Bracket) (elements : List Binder) (place : Span) :
    nodes (Binder.tuple bracket elements place) = [⟨place, none, nodes elements⟩] := by
  rw [← Binder.partsEach_eq]
  rfl

@[simp] theorem nodes_axm (name : Annex) (ty : Expr) (normalizer : Option Ident)
    (curryAndTrip : Option (Nat × Option Ident)) :
    nodes (DeclForm.axm name ty normalizer curryAndTrip) =
      nodes name ++ [ty.node] ++ nodes normalizer ++ nodes curryAndTrip := rfl

@[simp] theorem nodes_rec (bindings : List RecBinding) (lam : Option Lam) :
    nodes (DeclForm.rec_ bindings lam) = nodes bindings ++ nodes lam := by
  rw [← RecBinding.nodesEach_eq, ← Lam.node?_eq]
  rfl

@[simp] theorem nodes_rule (kind : RuleKind) (binder : Binder) (lhs : Expr) (guard : Option Expr)
    (rhs : Expr) : nodes (DeclForm.rule kind binder lhs guard rhs) =
      nodes binder ++ [lhs.node] ++ nodes guard ++ [rhs.node] := by
  rw [← Expr.node?_eq]
  rfl

@[simp] theorem nodes_recBinding (name : Name) (ty : Option Expr) (value : Expr) (place : Span) :
    nodes (RecBinding.mk name ty value place) =
      [⟨place, none, nodes name ++ nodes ty ++ [value.node]⟩] := by
  rw [← Expr.node?_eq]
  rfl

@[simp] theorem nodes_lam (kind : LamKind) (isExternal : Bool) (name : Name) (params : List Param)
    (codomain body : Option Expr) (place : Span) :
    nodes (Lam.mk kind isExternal name params codomain body place) =
      [⟨place, none, nodes name ++ nodes params ++ nodes codomain ++ nodes body⟩] := by
  rw [← Param.nodesEach_eq, ← Expr.node?_eq, ← Expr.node?_eq]
  rfl

@[simp] theorem nodes_param (domain : Binder) (filter : Option Expr) (place : Span) :
    nodes (Param.mk domain filter place) = [⟨place, none, nodes domain ++ nodes filter⟩] := by
  rw [← Expr.node?_eq]
  rfl

end Parts

/-- The whole tree: dependencies before declarations. -/
def File.node (f : File) : Node := ⟨f.span, none, nodes f.dependencies ++ nodes f.declarations⟩

end Mim
