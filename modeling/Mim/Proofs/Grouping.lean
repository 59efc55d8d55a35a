import Mim.Proofs.Progress
import Mim.Proofs.Loops

/-! # Grouping

What it means that a tree groups its operators by their precedence: each infix form
has operands that bind strongly enough on either side, and no left operand that would
have gone on over the operator.
-/

namespace Mim

/-- The operator of an infix form. -/
def Form.operator? : Form → Option Operator
  | .where_ _ _ => some .where_
  | .arrow _ _ => some .arrow
  | .injection _ _ => some .injection
  | .application _ _ explicit => some (if explicit then .explicitApplication else .application)
  | .union _ => some .union
  | .extraction _ _ => some .extraction
  | _ => none

/-- A form that may stand to the left of an operator. One that is open on its right would
    have taken the operator for itself; only a `where` is closed by its end. -/
def Form.IsLeftOf (o : Operator) : Form → Prop
  | .where_ _ _ => True
  | .lambda _ _ _ _ | .ret _ _ _ _ | .block _ _ | .ascribed _ _ _ => False
  | .match_ _ arms => arms = []
  | .pi _ _ codomain => codomain.isSome → o = .where_
  | form => ∀ op, form.operator? = some op → if o = .arrow then o.prec < op.prec else o.prec ≤ op.prec

/-- A form that binds at least as strongly as wanted. -/
def Form.Binds (least : Prec) (form : Form) : Prop :=
  ∀ op, form.operator? = some op → least ≤ op.prec

/-- A form that may stand to the right of an operator. -/
abbrev Form.IsRightOf (o : Operator) : Form → Prop := Form.Binds o.rightMin

/-- The operands of an infix form are where they may stand. -/
def Form.Groups : Form → Prop
  | .where_ body _ => body.form.IsLeftOf .where_
  | .arrow domain codomain => domain.form.IsLeftOf .arrow ∧ codomain.form.IsRightOf .arrow
  | .injection value ty => value.form.IsLeftOf .injection ∧ ty.form.IsRightOf .injection
  | .application callee argument explicit =>
    let o := if explicit then Operator.explicitApplication else .application
    callee.form.IsLeftOf o ∧ argument.form.IsRightOf o
  | .union variants =>
    2 ≤ variants.length ∧ (∀ e ∈ variants.take 1, e.form.IsLeftOf .union) ∧
      (∀ e ∈ variants.drop 1, e.form.IsRightOf .union) ∧
      ∀ e ∈ variants, e.form.operator? ≠ some .union
  | .extraction value index =>
    value.form.IsLeftOf .extraction ∧ index.form.IsRightOf .extraction
  | _ => True

/-! ## The expressions in a tree -/

mutual

/-- An expression and all that are nested in it. -/
def Expr.exprs : Expr → List Expr
  | ⟨form, span⟩ => ⟨form, span⟩ :: form.exprs

def Form.exprs : Form → List Expr
  | .primitive _ | .ident _ | .annex _ | .literal _ | .error => []
  | .ascribed _ _ ty => ty.exprs
  | .block declarations body => Decl.exprsEach declarations ++ body.exprs
  | .pi _ domain codomain => domain.exprs ++ Expr.exprs? codomain
  | .lambda _ domains codomain body =>
    Binder.exprsEach domains ++ Expr.exprs? codomain ++ body.exprs
  | .insert tuple index value => tuple.exprs ++ index.exprs ++ value.exprs
  | .ret binder callee argument body =>
    binder.exprs ++ callee.exprs ++ argument.exprs ++ body.exprs
  | .uniq inner => inner.exprs
  | .array sizes element => Expr.exprsEach sizes ++ element.exprs
  | .pack shape body => shape.exprs ++ body.exprs
  | .sigma tuple _ => tuple.exprs
  | .tuple elements => Expr.exprsEach elements
  | .match_ scrutinee arms => scrutinee.exprs ++ Arm.exprsEach arms
  | .extraction tuple index => tuple.exprs ++ index.exprs
  | .arrow domain codomain => domain.exprs ++ codomain.exprs
  | .union variants => Expr.exprsEach variants
  | .injection value ty => value.exprs ++ ty.exprs
  | .application callee argument _ => callee.exprs ++ argument.exprs
  | .where_ body declarations => body.exprs ++ Decl.exprsEach declarations

def Expr.exprsEach : List Expr → List Expr
  | [] => []
  | e :: es => e.exprs ++ Expr.exprsEach es

def Expr.exprs? : Option Expr → List Expr
  | none => []
  | some e => e.exprs

def Arm.exprsEach : List Arm → List Expr
  | [] => []
  | ⟨binder, body, _⟩ :: arms => binder.exprs ++ body.exprs ++ Arm.exprsEach arms

def Binder.exprs : Binder → List Expr
  | .name _ => []
  | .typed _ ty _ | .type ty | .group _ ty _ => ty.exprs
  | .tuple _ elements _ => Binder.exprsEach elements

def Binder.exprsEach : List Binder → List Expr
  | [] => []
  | b :: bs => b.exprs ++ Binder.exprsEach bs

def Decl.exprs : Decl → List Expr
  | ⟨_, form, _⟩ => form.exprs

def Decl.exprsEach : List Decl → List Expr
  | [] => []
  | d :: ds => d.exprs ++ Decl.exprsEach ds

def DeclForm.exprs : DeclForm → List Expr
  | .axm _ ty _ _ => ty.exprs
  | .cfun domain ty => domain.exprs ++ ty.exprs
  | .ccon domain => domain.exprs
  | .letAnnex _ value => value.exprs
  | .let_ target value => target.exprs ++ value.exprs
  | .rec_ bindings lam => RecBinding.exprsEach bindings ++ Lam.exprs? lam
  | .lam lam => lam.exprs
  | .rule _ binder lhs guard rhs =>
    binder.exprs ++ lhs.exprs ++ Expr.exprs? guard ++ rhs.exprs
  | .error => []

def RecBinding.exprsEach : List RecBinding → List Expr
  | [] => []
  | ⟨_, ty, value, _⟩ :: bindings =>
    Expr.exprs? ty ++ value.exprs ++ RecBinding.exprsEach bindings

def Lam.exprs : Lam → List Expr
  | ⟨_, _, _, params, codomain, body, _⟩ =>
    Param.exprsEach params ++ Expr.exprs? codomain ++ Expr.exprs? body

def Lam.exprs? : Option Lam → List Expr
  | none => []
  | some lam => lam.exprs

def Param.exprsEach : List Param → List Expr
  | [] => []
  | ⟨domain, filter, _⟩ :: params => domain.exprs ++ Expr.exprs? filter ++ Param.exprsEach params

end

def File.exprs (f : File) : List Expr := Decl.exprsEach f.declarations

/-! ## Trees in which every form groups -/

/-- Every expression of a list groups its own operands. -/
def AllGroup (es : List Expr) : Prop := ∀ e ∈ es, e.form.Groups

@[simp]
theorem allGroup_nil : AllGroup [] := fun _ h => nomatch h

@[simp]
theorem allGroup_cons (e : Expr) (es : List Expr) :
    AllGroup (e :: es) ↔ e.form.Groups ∧ AllGroup es := List.forall_mem_cons

@[simp]
theorem allGroup_append (es es' : List Expr) :
    AllGroup (es ++ es') ↔ AllGroup es ∧ AllGroup es' := List.forall_mem_append

/-- What can be read and may have expressions in it, each of which groups. -/
class Grouping (α : Type) where
  Grouped : α → Prop

export Grouping (Grouped)

section Instances

variable {α β : Type}

/-- A type without expressions. -/
@[reducible]
def Grouping.plain : Grouping α := ⟨fun _ => True⟩

instance : Grouping Unit := Grouping.plain
instance : Grouping Bool := Grouping.plain
instance : Grouping Nat := Grouping.plain
instance : Grouping Span := Grouping.plain
instance : Grouping Ident := Grouping.plain
instance : Grouping Annex := Grouping.plain
instance : Grouping Name := Grouping.plain
instance : Grouping LamKind := Grouping.plain
instance : Grouping RuleKind := Grouping.plain
instance : Grouping Dependency := Grouping.plain
instance : Grouping Expr := ⟨fun e => AllGroup e.exprs⟩
instance : Grouping Form := ⟨fun form => AllGroup form.exprs⟩
instance : Grouping Arm := ⟨fun a => AllGroup (Arm.exprsEach [a])⟩
instance : Grouping Binder := ⟨fun b => AllGroup b.exprs⟩
instance : Grouping Decl := ⟨fun d => AllGroup d.exprs⟩
instance : Grouping DeclForm := ⟨fun form => AllGroup form.exprs⟩
instance : Grouping RecBinding := ⟨fun b => AllGroup (RecBinding.exprsEach [b])⟩
instance : Grouping Lam := ⟨fun l => AllGroup l.exprs⟩
instance : Grouping Param := ⟨fun p => AllGroup (Param.exprsEach [p])⟩
instance : Grouping File := ⟨fun f => AllGroup f.exprs⟩
instance [Grouping α] : Grouping (Option α) := ⟨fun a => ∀ b ∈ a, Grouped b⟩
instance [Grouping α] : Grouping (List α) := ⟨fun as => ∀ a ∈ as, Grouped a⟩
instance [Grouping α] [Grouping β] : Grouping (α × β) := ⟨fun p => Grouped p.1 ∧ Grouped p.2⟩

variable [Grouping α] [Grouping β]

@[simp]
theorem grouped_none : Grouped (none : Option α) := fun _ h => nomatch h

@[simp]
theorem grouped_some (a : α) : Grouped (some a) ↔ Grouped a := by simp [Grouped]

@[simp]
theorem grouped_nil : Grouped ([] : List α) := fun _ h => nomatch h

@[simp]
theorem grouped_cons (a : α) (as : List α) : Grouped (a :: as) ↔ Grouped a ∧ Grouped as :=
  List.forall_mem_cons

@[simp]
theorem grouped_pair (a : α) (b : β) : Grouped (a, b) ↔ Grouped a ∧ Grouped b := Iff.rfl

end Instances

section Trees

@[simp]
theorem allGroup_exprs (e : Expr) : AllGroup e.exprs ↔ Grouped e := Iff.rfl

@[simp]
theorem allGroup_decl (d : Decl) : AllGroup d.exprs ↔ Grouped d := Iff.rfl

@[simp]
theorem grouped_form (form : Form) : Grouped form ↔ AllGroup form.exprs := Iff.rfl

@[simp]
theorem grouped_binder (b : Binder) : Grouped b ↔ AllGroup b.exprs := Iff.rfl

@[simp]
theorem grouped_declForm (form : DeclForm) : Grouped form ↔ AllGroup form.exprs := Iff.rfl

attribute [simp] Form.exprs Binder.exprs DeclForm.exprs

@[simp]
theorem allGroup_lam (l : Lam) : AllGroup l.exprs ↔ Grouped l := Iff.rfl

@[simp]
theorem allGroup_exprs? (e : Option Expr) : AllGroup (Expr.exprs? e) ↔ Grouped e := by
  cases e <;> simp [Expr.exprs?]

@[simp]
theorem allGroup_lam? (l : Option Lam) : AllGroup (Lam.exprs? l) ↔ Grouped l := by
  cases l <;> simp [Lam.exprs?]

@[simp]
theorem allGroup_exprsEach (es : List Expr) : AllGroup (Expr.exprsEach es) ↔ Grouped es := by
  induction es with
  | nil => simp [Expr.exprsEach]
  | cons e es ih => simp [Expr.exprsEach, ih]

@[simp]
theorem allGroup_binders (bs : List Binder) : AllGroup (Binder.exprsEach bs) ↔ Grouped bs := by
  induction bs with
  | nil => simp [Binder.exprsEach]
  | cons b bs ih => simp [Binder.exprsEach, ih]

@[simp]
theorem allGroup_decls (ds : List Decl) : AllGroup (Decl.exprsEach ds) ↔ Grouped ds := by
  induction ds with
  | nil => simp [Decl.exprsEach]
  | cons d ds ih => simp [Decl.exprsEach, ih]

@[simp]
theorem grouped_expr (form : Form) (span : Span) :
    Grouped (Expr.mk form span) ↔ form.Groups ∧ Grouped form := by
  rw [← allGroup_exprs, Expr.exprs, allGroup_cons, grouped_form]

@[simp]
theorem grouped_arm (binder : Binder) (body : Expr) (span : Span) :
    Grouped (Arm.mk binder body span) ↔ Grouped binder ∧ Grouped body := by
  change AllGroup (binder.exprs ++ body.exprs ++ Arm.exprsEach []) ↔ _
  simp [Arm.exprsEach]

@[simp]
theorem grouped_param (domain : Binder) (filter : Option Expr) (span : Span) :
    Grouped (Param.mk domain filter span) ↔ Grouped domain ∧ Grouped filter := by
  change AllGroup (domain.exprs ++ Expr.exprs? filter ++ Param.exprsEach []) ↔ _
  simp [Param.exprsEach]

@[simp]
theorem grouped_recBinding (name : Name) (ty : Option Expr) (value : Expr) (span : Span) :
    Grouped (RecBinding.mk name ty value span) ↔ Grouped ty ∧ Grouped value := by
  change AllGroup (Expr.exprs? ty ++ value.exprs ++ RecBinding.exprsEach []) ↔ _
  simp [RecBinding.exprsEach]

@[simp]
theorem allGroup_arms (as : List Arm) : AllGroup (Arm.exprsEach as) ↔ Grouped as := by
  induction as with
  | nil => simp [Arm.exprsEach]
  | cons a as ih =>
      cases a
      simp [Arm.exprsEach, ih, and_assoc]

@[simp]
theorem allGroup_params (ps : List Param) : AllGroup (Param.exprsEach ps) ↔ Grouped ps := by
  induction ps with
  | nil => simp [Param.exprsEach]
  | cons p ps ih =>
      cases p
      simp [Param.exprsEach, ih, and_assoc]

@[simp]
theorem allGroup_recBindings (bs : List RecBinding) :
    AllGroup (RecBinding.exprsEach bs) ↔ Grouped bs := by
  induction bs with
  | nil => simp [RecBinding.exprsEach]
  | cons b bs ih =>
      cases b
      simp [RecBinding.exprsEach, ih, and_assoc]

@[simp]
theorem grouped_lam (kind : LamKind) (isExternal : Bool) (name : Name) (params : List Param)
    (codomain body : Option Expr) (span : Span) :
    Grouped (Lam.mk kind isExternal name params codomain body span) ↔
      Grouped params ∧ Grouped codomain ∧ Grouped body := by
  rw [← allGroup_lam, Lam.exprs]
  simp

@[simp]
theorem grouped_decl (doc : Option String) (form : DeclForm) (span : Span) :
    Grouped (Decl.mk doc form span) ↔ Grouped form := Iff.rfl

@[simp]
theorem grouped_file (dependencies : List Dependency) (declarations : List Decl) (span : Span) :
    Grouped (File.mk dependencies declarations span) ↔ Grouped declarations :=
  allGroup_decls declarations

end Trees

/-! ## What a step reads -/

/-- What a step reads, and the reading after it, are as told. -/
def Ensures {α : Type} (p : Parser α) (Q : α → Reading → Prop) : Prop :=
  ∀ s a s', p s = .ok a s' → Q a s'

/-- Every tree that a step reads groups. -/
abbrev Yields {α : Type} [Grouping α] (p : Parser α) : Prop := Ensures p fun a _ => Grouped a

namespace Ensures

open Grammar

variable {α β : Type} {Q R : α → Reading → Prop} {T : β → Reading → Prop}

theorem pure {a : α} (h : ∀ s, Q a s) : Ensures (Pure.pure a) Q := by
  intro s b s' run
  obtain ⟨rfl, rfl⟩ := pure_ok.1 run
  exact h _

theorem unexpected {expected : String} : Ensures (Grammar.unexpected expected) Q :=
  fun _ _ _ run => nomatch run

theorem invalid {message : String} {place : Span} : Ensures (Grammar.invalid message place) Q :=
  fun _ _ _ run => nomatch run

theorem mono {p : Parser α} (h : Ensures p R) (hQ : ∀ a s, R a s → Q a s) : Ensures p Q :=
  fun _ _ _ run => hQ _ _ (h _ _ _ run)

theorem bind [Grouping α] {p : Parser α} {f : α → Parser β} (hp : Yields p)
    (hf : ∀ a, Grouped a → Ensures (f a) T) : Ensures (p >>= f) T := by
  intro s b s' run
  obtain ⟨a, s₁, first, rest⟩ := bind_ok.1 run
  exact hf a (hp _ _ _ first) _ _ _ rest

/-- A step that reads no tree, and what follows it. -/
theorem skip {p : Parser α} {f : α → Parser β} (hf : ∀ a, Ensures (f a) T) :
    Ensures (p >>= f) T := by
  intro s b s' run
  obtain ⟨a, s₁, -, rest⟩ := bind_ok.1 run
  exact hf a _ _ _ rest

/-- The last step, and what is made of it. -/
theorem last {p : Parser α} {f : α → β} (hp : Ensures p R) (h : ∀ a s, R a s → T (f a) s) :
    Ensures (p >>= fun a => Pure.pure (f a)) T := by
  intro s b s' run
  obtain ⟨a, s₁, first, rest⟩ := bind_ok.1 run
  obtain ⟨rfl, rfl⟩ := pure_ok.1 rest
  exact h _ _ (hp _ _ _ first)

theorem map {p : Parser α} {f : α → β} (hp : Ensures p R) (h : ∀ a s, R a s → T (f a) s) :
    Ensures (f <$> p) T := by
  rw [map_eq_bind]
  exact last hp h

theorem ite {c : Prop} [Decidable c] {p q : Parser α} (hp : Ensures p Q) (hq : Ensures q Q) :
    Ensures (if c then p else q) Q := by
  split <;> assumption

theorem located {p : Parser α} (hp : Ensures p Q) :
    Ensures (Grammar.located p) fun a s => Q a.1 s := by
  refine skip fun place => ?_
  intro s a s' run
  obtain ⟨b, s₁, first, rest⟩ := bind_ok.1 run
  rw [get_bind] at rest
  obtain ⟨rfl, rfl⟩ := pure_ok.1 rest
  exact hp _ _ _ first

theorem place [Grouping α] {p : Parser α} (hp : Yields p) : Yields (Grammar.located p) :=
  (located hp).mono fun _ _ h => ⟨h, trivial⟩

theorem after {marker : Token} {p : Parser α} (hp : Ensures p Q) :
    Ensures (Grammar.after marker p) fun a s => ∀ b ∈ a, Q b s := by
  refine skip fun
    | true => ?_
    | false => pure fun _ _ h => nomatch h
  refine map hp fun a s h b hb => ?_
  obtain rfl : a = b := by simpa using hb
  exact h

theorem many [Grouping α] {step : Parser (Option α)} (h : Yields step) :
    Yields (Grammar.many step) := by
  suffices upTo : ∀ n, Yields (manyUpTo step n) from fun s a s' run => upTo _ _ _ _ run
  intro n
  induction n with
  | zero => exact pure fun _ => grouped_nil
  | succ n ih =>
      refine bind h fun a ha => ?_
      cases a with
      | none => exact pure fun _ => grouped_nil
      | some a => exact last ih fun as _ has => (grouped_cons a as).2 ⟨(grouped_some a).1 ha, has⟩

theorem many1 [Grouping α] {first : Parser α} {step : Parser (Option α)} (hf : Yields first)
    (h : Yields step) : Yields (Grammar.many1 first step) :=
  bind hf fun a ha => last (many h) fun as _ has => (grouped_cons a as).2 ⟨ha, has⟩

theorem commaList [Grouping α] {close : Token} {element : Parser α} (h : Yields element) :
    Yields (Grammar.commaList close element) := by
  suffices upTo : ∀ n, Yields (commaListUpTo close element n) from
    fun s a s' run => upTo _ _ _ _ run
  intro n
  induction n with
  | zero => exact pure fun _ => grouped_nil
  | succ n ih =>
      refine skip fun closes => ite (pure fun _ => grouped_nil) ?_
      refine bind h fun a ha => skip fun comma => ite ?_ ?_
      · exact last ih fun as _ has => (grouped_cons a as).2 ⟨ha, has⟩
      · exact pure fun _ => (grouped_cons a []).2 ⟨ha, grouped_nil⟩

/-- A broken declaration leaves nothing but a placeholder. -/
theorem declarationOrError {inWhere : Bool} {p : Parser Decl} (h : Yields p) :
    Yields (Grammar.declarationOrError inWhere p) := by
  intro s d s' run
  obtain ⟨r, s₁, first, rest⟩ := bind_ok.1 run
  cases hp : p s with
  | ok a s₂ =>
      rw [recovering_ok hp] at first
      cases first
      obtain ⟨rfl, rfl⟩ := pure_ok.1 rest
      exact h _ _ _ hp
  | error e s₂ =>
      rw [recovering_error hp] at first
      cases first
      obtain ⟨rfl, rfl⟩ := pure_ok.1 rest
      exact allGroup_nil

end Ensures

end Mim
