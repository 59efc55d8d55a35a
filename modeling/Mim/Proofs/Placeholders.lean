import Mim.Command
import Mim.Proofs.Nesting
import Mim.Proofs.Reports

/-! # Placeholders

A placeholder in the tree of a text stands for something wrong with the text, and nothing
that is wrong after the dependencies goes without one. A tree without placeholders is
written without any.
-/

namespace Mim

open Grammar
open Node (AllWhole)

/-! ## Layouts without placeholders -/

theorem Expr.allWhole_node (form : Form) (place : Span) :
    AllWhole [Expr.node ⟨form, place⟩] ↔ form.isWhole ∧ AllWhole (nodes form) := by
  rw [Node.allWhole_cons, and_iff_left Node.allWhole_nil]
  exact and_congr_left fun _ => by simp [Expr.node, Node.isPlaceholder]

theorem Decl.allWhole_node (doc : Option String) (form : DeclForm) (place : Span) :
    AllWhole [Decl.node ⟨doc, form, place⟩] ↔ form.isWhole ∧ AllWhole (nodes form) := by
  rw [Node.allWhole_cons, and_iff_left Node.allWhole_nil]
  exact and_congr_left fun _ => by simp [Decl.node, Node.isPlaceholder]

namespace Layout

/-- No piece stands for something broken. -/
def IsWhole (l : Layout) : Prop := .placeholder ∉ l

variable {l l' : Layout} {p : Piece} {ls : List Layout}

@[simp] theorem isWhole_nil : IsWhole [] := nofun

@[simp] theorem isWhole_cons : IsWhole (p :: l) ↔ p ≠ .placeholder ∧ IsWhole l := by
  rw [IsWhole, List.mem_cons, not_or, ne_comm]
  rfl

@[simp] theorem isWhole_append : IsWhole (l ++ l') ↔ IsWhole l ∧ IsWhole l' := by
  rw [IsWhole, List.mem_append, not_or]
  rfl

@[simp] theorem isWhole_word (k : Keyword) : Piece.word k ≠ .placeholder := nofun

@[simp] theorem isWhole_sign (s : Symbol) : Piece.sign s ≠ .placeholder := nofun

@[simp] theorem isWhole_spaced (t : Token) : IsWhole (spaced t) := by simp [spaced]

@[simp] theorem isWhole_join {separator : Layout} (h : separator.IsWhole) :
    IsWhole (join separator ls) ↔ ∀ l ∈ ls, IsWhole l := by
  induction ls with
  | nil => simp [join]
  | cons l ls ih =>
      cases ls with
      | nil => simp [join]
      | cons => simp only [join, isWhole_append, ih, List.forall_mem_cons, h, and_true]

@[simp] theorem isWhole_commas : IsWhole (commas ls) ↔ ∀ l ∈ ls, IsWhole l :=
  isWhole_join (by simp)

@[simp] theorem isWhole_flatMap {α : Type} {f : α → Layout} {as : List α} :
    IsWhole (as.flatMap f) ↔ ∀ a ∈ as, IsWhole (f a) := by
  simp [IsWhole, List.mem_flatMap]

end Layout

@[simp] theorem Ident.isWhole_layout (i : Ident) : i.layout.IsWhole := by simp [Ident.layout]

@[simp] theorem Subtag.isWhole_layout (t : Subtag) : t.layout.IsWhole := by simp [Subtag.layout]

@[simp] theorem Annex.isWhole_layout (a : Annex) : a.layout.IsWhole := by
  unfold Annex.layout
  split <;> simp

@[simp] theorem Name.isWhole_layout (n : Name) : n.layout.IsWhole := by
  cases n with
  | ident i => exact i.isWhole_layout
  | annex a => exact a.isWhole_layout

@[simp] theorem isWhole_docLayout (doc : Option String) : (docLayout doc).IsWhole := by
  simp [docLayout]

@[simp] theorem DeclForm.isWhole_axmOptions (normalizer : Option Ident)
    (curryAndTrip : Option (Nat × Option Ident)) :
    (DeclForm.layout.axmOptions normalizer curryAndTrip).IsWhole := by
  have named : ∀ i : Option Ident,
      Layout.IsWhole (i.elim [] fun i => [.sign .comma, .gap] ++ i.layout)
    | none => Layout.isWhole_nil
    | some i => by simp
  unfold DeclForm.layout.axmOptions
  match curryAndTrip with
  | none => simpa using named normalizer
  | some (n, trip) =>
    have count : Layout.IsWhole [.sign .comma, .gap, .token (.literal (.int n))] := by simp
    exact Layout.isWhole_append.2 ⟨named normalizer, Layout.isWhole_append.2 ⟨count, named trip⟩⟩

mutual

/-- A tree is written without placeholders just if there are none in it. -/
theorem Expr.isWhole_layout : ∀ e : Expr, e.layout.IsWhole ↔ AllWhole [e.node]
  | ⟨form, place⟩ => form.isWhole_layout.trans (Expr.allWhole_node form place).symm

theorem Form.isWhole_layout : ∀ form : Form,
    form.layout.IsWhole ↔ form.isWhole ∧ AllWhole (nodes form)
  | .primitive _ | .ident _ | .annex _ | .literal _ =>
    iff_of_true (by simp [Form.layout]) ⟨rfl, Node.allWhole_nil⟩
  | .ascribed value place ty => by
      change _ ↔ _ ∧ AllWhole [.leaf place, ty.node]
      rw [Node.allWhole_pair, and_iff_right (Node.allWhole_leaf place), ← Expr.isWhole_layout ty]
      simp [Form.layout, Form.isWhole]
  | .block ds body => by
      rw [nodes_block, Node.allWhole_append, ← Expr.isWhole_layout body, ← Decl.isWhole_inner ds]
      simp [Form.layout, Form.isWhole]
  | .pi kind domain codomain => by
      rw [nodes_pi, Node.allWhole_append, ← Binder.isWhole_layout domain,
        ← Expr.isWhole_after (Layout.isWhole_spaced (.symbol .arrow)) codomain]
      cases kind <;> simp [Form.layout, Form.isWhole, PiKind.layout]
  | .lambda kind domains codomain body => by
      rw [nodes_lambda, Node.allWhole_append, Node.allWhole_append, ← Binder.isWhole_each domains,
        ← Expr.isWhole_after (Layout.isWhole_spaced (.symbol .colon)) codomain,
        ← Expr.isWhole_layout body]
      simp [Form.layout, Form.isWhole, and_assoc]
  | .insert a b c => by
      rw [nodes_insert, Node.allWhole_pair, Node.allWhole_pair, ← Expr.isWhole_layout a,
        ← Expr.isWhole_layout b, ← Expr.isWhole_layout c]
      simp [Form.layout, Form.isWhole]
  | .ret binder a b c => by
      rw [nodes_ret, Node.allWhole_append, Node.allWhole_pair, Node.allWhole_pair,
        ← Binder.isWhole_layout binder, ← Expr.isWhole_layout a, ← Expr.isWhole_layout b,
        ← Expr.isWhole_layout c]
      simp [Form.layout, Form.isWhole]
  | .uniq inner => by
      rw [nodes_uniq, ← Expr.isWhole_layout inner]
      simp [Form.layout, Form.isWhole]
  | .array sizes element => by
      rw [nodes_array, Node.allWhole_append, ← Expr.isWhole_all sizes, ← Expr.isWhole_layout element]
      simp [Form.layout, Form.isWhole]
  | .pack shape body => by
      rw [nodes_pack, Node.allWhole_pair, ← Expr.isWhole_layout shape, ← Expr.isWhole_layout body]
      simp [Form.layout, Form.isWhole]
  | .sigma tuple label => by
      rw [nodes_sigma, Node.allWhole_append, ← Binder.isWhole_layout tuple]
      cases label <;> simp [Form.layout, Form.isWhole]
  | .tuple es => by
      rw [nodes_tuple, ← Expr.isWhole_all es]
      simp [Form.layout, Form.isWhole]
  | .match_ scrutinee arms => by
      rw [nodes_match, Node.allWhole_head, ← Expr.isWhole_layout scrutinee, ← Arm.isWhole_all arms]
      simp [Form.layout, Form.isWhole]
  | .extraction tuple index => by
      change _ ↔ _ ∧ AllWhole [tuple.node, index.node]
      rw [Node.allWhole_pair, ← Expr.isWhole_layout tuple, ← Expr.isWhole_layout index]
      simp [Form.layout, Form.isWhole]
  | .arrow domain codomain => by
      change _ ↔ _ ∧ AllWhole [domain.node, codomain.node]
      rw [Node.allWhole_pair, ← Expr.isWhole_layout domain, ← Expr.isWhole_layout codomain]
      simp [Form.layout, Form.isWhole]
  | .union variants => by
      rw [nodes_union, ← Expr.isWhole_all variants]
      simp [Form.layout, Form.isWhole]
  | .injection value ty => by
      change _ ↔ _ ∧ AllWhole [value.node, ty.node]
      rw [Node.allWhole_pair, ← Expr.isWhole_layout value, ← Expr.isWhole_layout ty]
      simp [Form.layout, Form.isWhole]
  | .application callee argument explicit => by
      change _ ↔ _ ∧ AllWhole [callee.node, argument.node]
      rw [Node.allWhole_pair, ← Expr.isWhole_layout callee, ← Expr.isWhole_layout argument]
      cases explicit <;> simp [Form.layout, Form.isWhole]
  | .where_ body ds => by
      rw [nodes_where, Node.allWhole_head, ← Expr.isWhole_layout body, ← Decl.isWhole_inner ds]
      simp [Form.layout, Form.isWhole]
  | .error => iff_of_false (by simp [Form.layout]) fun h => nomatch h.1

theorem Expr.isWhole_all : ∀ es : List Expr,
    (∀ l ∈ Expr.layouts es, Layout.IsWhole l) ↔ AllWhole (nodes es)
  | [] => iff_of_true nofun Node.allWhole_nil
  | e :: es => by
      rw [Expr.layouts, List.forall_mem_cons, Expr.isWhole_layout e, Expr.isWhole_all es, nodes_cons,
        Node.allWhole_append, nodes_expr]

theorem Expr.isWhole_after {lead : Layout} (h : lead.IsWhole) : ∀ e : Option Expr,
    (Expr.layoutAfter lead e).IsWhole ↔ AllWhole (nodes e)
  | none => iff_of_true Layout.isWhole_nil Node.allWhole_nil
  | some e => by
      rw [Expr.layoutAfter, Layout.isWhole_append, and_iff_right h, Expr.isWhole_layout e, nodes_some,
        nodes_expr]

theorem Arm.isWhole_all : ∀ arms : List Arm,
    (∀ l ∈ Arm.layouts arms, Layout.IsWhole l) ↔ AllWhole (nodes arms)
  | [] => iff_of_true nofun Node.allWhole_nil
  | ⟨binder, body, place⟩ :: arms => by
      rw [Arm.layouts, List.forall_mem_cons, Arm.isWhole_all arms, nodes_cons, nodes_arm,
        Node.allWhole_append, Node.allWhole_mk, Node.allWhole_append, ← Binder.isWhole_layout binder,
        ← Expr.isWhole_layout body]
      simp

theorem Binder.isWhole_layout : ∀ b : Binder, b.layout.IsWhole ↔ AllWhole (nodes b)
  | .name ident => iff_of_true ident.isWhole_layout (Noded.allWhole ident)
  | .typed ident ty place => by
      change _ ↔ AllWhole [⟨place, none, nodes ident ++ [ty.node]⟩]
      rw [Node.allWhole_mk, Node.allWhole_append, ← Expr.isWhole_layout ty]
      simp [Binder.layout]
  | .type ty => Expr.isWhole_layout ty
  | .group names ty place => by
      change _ ↔ AllWhole [⟨place, none, nodes names ++ [ty.node]⟩]
      rw [Node.allWhole_mk, Node.allWhole_append, ← Expr.isWhole_layout ty]
      simp [Binder.layout]
  | .tuple bracket bs place => by
      rw [nodes_elements, Node.allWhole_mk, ← Binder.isWhole_all bs]
      simp [Binder.layout]

theorem Binder.isWhole_all : ∀ bs : List Binder,
    (∀ l ∈ Binder.layouts bs, Layout.IsWhole l) ↔ AllWhole (nodes bs)
  | [] => iff_of_true nofun Node.allWhole_nil
  | b :: bs => by
      rw [Binder.layouts, List.forall_mem_cons, Binder.isWhole_layout b, Binder.isWhole_all bs,
        nodes_cons, Node.allWhole_append]

theorem Binder.isWhole_each : ∀ bs : List Binder,
    (Binder.layoutEach bs).IsWhole ↔ AllWhole (nodes bs)
  | [] => iff_of_true Layout.isWhole_nil Node.allWhole_nil
  | b :: bs => by
      rw [nodes_cons, Node.allWhole_append, ← Binder.isWhole_layout b, ← Binder.isWhole_each bs]
      simp [Binder.layoutEach]

theorem Decl.isWhole_layout : ∀ d : Decl, d.layout.IsWhole ↔ AllWhole [d.node]
  | ⟨doc, form, place⟩ => by
      rw [Decl.allWhole_node, ← DeclForm.isWhole_layout form]
      simp [Decl.layout]

theorem Decl.isWhole_inner : ∀ ds : List Decl,
    (Decl.innerLayout ds).IsWhole ↔ AllWhole (nodes ds)
  | [] => iff_of_true Layout.isWhole_nil Node.allWhole_nil
  | d :: ds => by
      change _ ↔ AllWhole (d.node :: nodes ds)
      rw [Node.allWhole_head, ← Decl.isWhole_layout d, ← Decl.isWhole_inner ds]
      simp [Decl.innerLayout]

theorem DeclForm.isWhole_layout : ∀ form : DeclForm,
    form.layout.IsWhole ↔ form.isWhole ∧ AllWhole (nodes form)
  | .axm name ty normalizer curryAndTrip => by
      rw [nodes_axm, Node.allWhole_append, Node.allWhole_append, Node.allWhole_append,
        ← Expr.isWhole_layout ty]
      simp [DeclForm.layout, DeclForm.isWhole]
  | .cfun domain ty => by
      change _ ↔ _ ∧ AllWhole (nodes domain ++ [ty.node])
      rw [Node.allWhole_append, ← Binder.isWhole_layout domain, ← Expr.isWhole_layout ty]
      simp [DeclForm.layout, DeclForm.isWhole]
  | .ccon domain => by
      change _ ↔ _ ∧ AllWhole (nodes domain)
      rw [← Binder.isWhole_layout domain]
      simp [DeclForm.layout, DeclForm.isWhole]
  | .letAnnex target value => by
      change _ ↔ _ ∧ AllWhole (nodes target ++ [value.node])
      rw [Node.allWhole_append, ← Expr.isWhole_layout value]
      simp [DeclForm.layout, DeclForm.isWhole]
  | .let_ target value => by
      change _ ↔ _ ∧ AllWhole (nodes target ++ [value.node])
      rw [Node.allWhole_append, ← Binder.isWhole_layout target, ← Expr.isWhole_layout value]
      simp [DeclForm.layout, DeclForm.isWhole]
  | .rec_ bindings lam => by
      rw [nodes_rec, Node.allWhole_append, ← RecBinding.isWhole_all bindings,
        ← Lam.isWhole_after (Layout.isWhole_spaced (.keyword .and_)) lam]
      simp [DeclForm.layout, DeclForm.isWhole]
  | .lam lam => by
      change _ ↔ _ ∧ AllWhole (nodes lam)
      rw [← Lam.isWhole_layout lam]
      simp [DeclForm.layout, DeclForm.isWhole]
  | .rule kind binder lhs guard rhs => by
      rw [nodes_rule, Node.allWhole_append, Node.allWhole_append, Node.allWhole_append,
        ← Binder.isWhole_layout binder, ← Expr.isWhole_layout lhs, ← Expr.isWhole_layout rhs,
        ← Expr.isWhole_after (Layout.isWhole_spaced (.keyword .when_)) guard]
      simp [DeclForm.layout, DeclForm.isWhole, and_assoc]
  | .error => iff_of_false (by simp [DeclForm.layout]) fun h => nomatch h.1

theorem RecBinding.isWhole_all : ∀ bs : List RecBinding,
    (∀ l ∈ RecBinding.layouts bs, Layout.IsWhole l) ↔ AllWhole (nodes bs)
  | [] => iff_of_true nofun Node.allWhole_nil
  | ⟨name, ty, value, place⟩ :: bs => by
      rw [RecBinding.layouts, List.forall_mem_cons, RecBinding.isWhole_all bs, nodes_cons,
        nodes_recBinding, Node.allWhole_append, Node.allWhole_mk, Node.allWhole_append,
        Node.allWhole_append, ← Expr.isWhole_after (Layout.isWhole_spaced (.symbol .colon)) ty,
        ← Expr.isWhole_layout value]
      simp

theorem Lam.isWhole_layout : ∀ l : Lam, l.layout.IsWhole ↔ AllWhole (nodes l)
  | ⟨kind, isExternal, name, params, codomain, body, place⟩ => by
      rw [nodes_lam, Node.allWhole_mk, Node.allWhole_append, Node.allWhole_append,
        Node.allWhole_append, ← Param.isWhole_each params,
        ← Expr.isWhole_after (Layout.isWhole_spaced (.symbol .colon)) codomain,
        ← Expr.isWhole_after (Layout.isWhole_spaced (.symbol .assign)) body]
      cases isExternal <;> simp [Lam.layout, and_assoc]

theorem Lam.isWhole_after {lead : Layout} (h : lead.IsWhole) : ∀ l : Option Lam,
    (Lam.layoutAfter lead l).IsWhole ↔ AllWhole (nodes l)
  | none => iff_of_true Layout.isWhole_nil Node.allWhole_nil
  | some l => by
      rw [Lam.layoutAfter, Layout.isWhole_append, and_iff_right h, Lam.isWhole_layout l, nodes_some]

theorem Param.isWhole_each : ∀ ps : List Param,
    (Param.layoutEach ps).IsWhole ↔ AllWhole (nodes ps)
  | [] => iff_of_true Layout.isWhole_nil Node.allWhole_nil
  | ⟨domain, filter, place⟩ :: ps => by
      rw [nodes_cons, nodes_param, Node.allWhole_append, Node.allWhole_mk, Node.allWhole_append,
        ← Binder.isWhole_layout domain, ← Param.isWhole_each ps,
        ← Expr.isWhole_after (Layout.isWhole_spaced (.symbol .atSign)) filter]
      simp [Param.layoutEach, and_assoc]

end

@[simp] theorem Dependency.isWhole_layout (d : Dependency) : d.layout.IsWhole := by
  simp [Dependency.layout]

theorem File.isWhole_layout (f : File) : f.layout.IsWhole ↔ AllWhole f.node.children := by
  change _ ↔ AllWhole (nodes f.dependencies ++ nodes f.declarations)
  rw [Node.allWhole_append, and_iff_right (Noded.allWhole f.dependencies)]
  have decls : ∀ ds : List Decl,
      Layout.IsWhole (ds.flatMap fun d => d.layout ++ [.sign .semicolon, .line]) ↔
        AllWhole (nodes ds) := by
    intro ds
    induction ds with
    | nil => exact iff_of_true Layout.isWhole_nil Node.allWhole_nil
    | cons d ds ih =>
        change _ ↔ AllWhole (d.node :: nodes ds)
        rw [Node.allWhole_head, ← ih, ← Decl.isWhole_layout d]
        simp
  rw [← decls]
  unfold File.layout
  split <;> simp

/-! ## Errors without placeholders -/

/-- The items of lexemes hold as much broken text as the lexemes. -/
theorem Item.countP_isBroken (xs : List Lexeme) :
    (ofLexemes xs).countP (·.token.isBroken) = xs.countP (·.token.isBroken) := by
  have tokens := congrArg (List.countP Token.isBroken) (map_ofLexemesAfter (fun t _ => t) xs [])
  rw [List.countP_map, List.countP_map, Lexeme.solid, List.countP_filter] at tokens
  refine Eq.trans tokens (List.countP_congr fun x _ => ?_)
  cases h : x.token <;> simp [Token.isBroken, Token.isDoc, h]

namespace Source

variable {text : String}

/-- A text has an error for each piece of broken text, and for each that the grammar records. -/
theorem length_errors (text : String) : (ofText text).errors.length =
    (reading text).rest.countP (·.token.isBroken) +
      (reading text).file.2.recorded.countP Diagnostic.isError := by
  have broken : ((lexemes text).flatMap Lexeme.errors).length =
      (reading text).rest.countP (·.token.isBroken) :=
    (Lexeme.length_errors _).trans (Item.countP_isBroken _).symm
  rw [errors_ofText, Diagnostic.length_sort, List.length_append, Diagnostic.length_sort,
    List.length_reverse, broken, ← List.countP_eq_length_filter]

/-- A text has no errors just if nothing goes wrong from its start to its end. -/
theorem hasErrors_eq_false_iff :
    (ofText text).hasErrors = false ↔ (reading text).Sound (reading text).file.2 := by
  have all : (reading text).file.2.rest.countP (·.token.isBroken) = 0 := by
    rw [(reading text).fileParts_ok.1]
    rfl
  have none : (reading text).recorded.countP Diagnostic.isError = 0 := rfl
  rw [hasErrors_eq_false, ← List.length_eq_zero_iff, length_errors]
  constructor
  · intro zero
    exact ⟨by omega, by omega⟩
  · rintro ⟨rest, recorded⟩
    omega

/-- There is no placeholder in the tree of a text without errors, and unless the text starts
    with dependencies, only there. -/
theorem allWhole_file (text : String) :
    ((ofText text).hasErrors = false → AllWhole (ofText text).file.node.children) ∧
      ((reading text).token?.any startsDependency = false →
        AllWhole (ofText text).file.node.children → (ofText text).hasErrors = false) := by
  obtain ⟨f, s', run, -⟩ := file_read (g := (reading text).nested) nests_self (reading text)
  obtain ⟨-, -, -, -, whole⟩ := file_lays (lays_upTo _) run
  rw [hasErrors_eq_false_iff, file_ofText, Reading.file_eq run]
  exact whole

theorem allWhole_children (f : File) :
    AllWhole f.node.children ↔ ¬ ∃ n ∈ f.node.all, n.isPlaceholder := by
  have root : ¬ f.node.isPlaceholder = true := Bool.false_ne_true
  rw [Node.all_eq, List.exists_mem_cons_iff, not_or, and_iff_right root]
  simp [AllWhole]

/-- The token that a text starts with, but for doc comments. -/
theorem token?_reading (text : String) :
    (reading text).token? = (Lexeme.solid (lexemes text)).head?.map Lexeme.token := by
  have tokens := Item.map_ofLexemesAfter (fun t _ => t) (lexemes text) []
  rw [Reading.token?, ← List.head?_map, ← List.head?_map]
  exact congrArg List.head? tokens

end Source

open Source (ofText)

/-- A placeholder in the tree of a text comes with an error, an error of a text that starts
    with no dependency comes with a placeholder, and nothing is formatted that has one. -/
theorem errors_come_with_placeholders (text : String) :
    ((∃ n ∈ (ofText text).file.node.all, n.isPlaceholder) → (ofText text).hasErrors) ∧
      ((∀ x ∈ (Lexeme.solid (lexemes text)).head?,
          x.token ≠ .keyword .import_ ∧ x.token ≠ .keyword .plugin) →
        (ofText text).hasErrors → ∃ n ∈ (ofText text).file.node.all, n.isPlaceholder) ∧
      ∀ files path, Command.readText files path = .ok text →
        (Command.run files (.fmt path)).output ≠ "" →
          (Command.run files (.fmt path)).output = (ofText text).file.text ∧
            (¬ ∃ n ∈ (ofText text).file.node.all, n.isPlaceholder) ∧
            Piece.placeholder ∉ (ofText text).file.layout := by
  obtain ⟨whole, sound⟩ := Source.allWhole_file text
  rw [Source.allWhole_children] at whole sound
  refine ⟨fun found => ?_, fun first wrong => ?_, fun files path read written => ?_⟩
  · by_contra clean
    exact whole (by simpa using clean) found
  · by_contra none
    have start : (Source.reading text).token?.any startsDependency = false := by
      rw [Source.token?_reading, Option.any_map, Option.any_eq_false]
      intro x hx
      refine Bool.eq_false_iff.2 fun starts => ?_
      obtain ⟨noImport, noPlugin⟩ := first x hx
      rcases startsDependency_cases starts with eq | eq
      · exact noImport eq
      · exact noPlugin eq
    rw [sound start none] at wrong
    cases wrong
  · have run : Command.run files (.fmt path) = Command.runFmt path text := by
      rw [Command.run, Command.onText, read]
    change (Command.run files (.fmt path)).output ≠ "" at written
    rw [run, Command.runFmt] at written ⊢
    by_cases wrong : (Source.read path text).hasErrors
    · exact absurd (congrArg Command.Outcome.output (if_pos wrong)) written
    · have none := whole (Bool.eq_false_of_not_eq_true wrong)
      rw [if_neg wrong]
      exact ⟨rfl, none, (File.isWhole_layout _).2 ((Source.allWhole_children _).2 none)⟩

/-- A declaration that breaks off inside another, behind a doc comment. -/
theorem errors_come_with_placeholders_nested :
    let text := "/// d\nlet x = a where let y = ; let z = b end"
    let files : Command.Files := fun _ => some "let x = a".toUTF8
    ((ofText text).hasErrors ∧ ∃ n ∈ (ofText text).file.node.all, n.isPlaceholder) ∧
      Piece.placeholder ∉ (ofText "let x = a").file.layout ∧
      (Command.run files (.fmt "x.mim")).output = "let x = a;\n" := by
  intro text files
  have wrong : (ofText text).hasErrors := by decide +kernel
  have first : ∀ x ∈ (Lexeme.solid (lexemes text)).head?,
      x.token ≠ .keyword .import_ ∧ x.token ≠ .keyword .plugin := by
    have starts : (Lexeme.solid (lexemes text)).head?.map Lexeme.token = some (.keyword .let_) := by
      decide +kernel
    intro x hx
    rw [Option.mem_def.1 hx] at starts
    rw [Option.some.inj starts]
    simp
  have output : (Command.run files (.fmt "x.mim")).output = "let x = a;\n" := by decide +kernel
  have read : Command.readText files "x.mim" = .ok "let x = a" := by decide +kernel
  obtain ⟨-, -, whole⟩ := (errors_come_with_placeholders "let x = a").2.2 files "x.mim" read
    (by rw [output]; decide)
  exact ⟨⟨wrong, (errors_come_with_placeholders text).2.1 first wrong⟩, whole, output⟩

end Mim
