import Mim.Proofs.Grouping
import Mim.Proofs.Lexing.Layouts
import Mim.Proofs.Node

/-! # Well-formed trees

The types of trees allow more than is ever read: lists that are empty, binders between
brackets of another family, parts that exclude each other. What well-formed means is said of
one expression or declaration at a time, without those inside it, but with all its names and
binders, down to the last tuple.
-/

namespace Mim

/-- Every fixed spelling of a token: none of them is a name. -/
def Token.reserved : List String :=
  ["tt", "ff"] ++ Keyword.all.map Keyword.text ++ Keyword.aliases.map Prod.fst ++
    Primitive.words.map Primitive.text ++ Token.signs.map (String.ofList ·.1)

def Ident.WellFormed (i : Ident) : Prop := i.name ∉ Token.reserved

structure Subtag.WellFormed (t : Subtag) : Prop where
  tag : t.tag.WellFormed
  aliases : ∀ i ∈ t.aliases, i.WellFormed

/-- An annex has a subtag in its path or subtags in a list, not both. -/
structure Annex.WellFormed (a : Annex) : Prop where
  once : a.path.subtag.isSome → a.subtags = []
  subtags : ∀ t ∈ a.subtags, t.WellFormed

def Name.WellFormed : Name → Prop
  | .ident i => i.WellFormed
  | .annex a => a.WellFormed

/-! ## Binders

A binder in round brackets is a pattern, one in square brackets a battern, and one in curly
brackets an implicit. So a bracket stands for a family of binders. -/

/-- The family of the binders between two brackets. -/
def Bracket.inner : Bracket → Bracket
  | .round => .round
  | .square | .curly => .square

namespace Binder

def isTuple : Binder → Bool
  | .tuple _ _ _ => true
  | _ => false

/-- Two names at least that share a type. -/
def IsGroup : Binder → Prop
  | .group names _ _ => 2 ≤ names.length ∧ ∀ i ∈ names, i.WellFormed
  | _ => False

mutual

/-- A binder of a family. A name with a type is a pattern as well as a battern. -/
def IsOf (family : Bracket) : Binder → Prop
  | .name i => family = .round ∧ i.WellFormed
  | .typed i _ _ => family ≠ .curly ∧ i.WellFormed
  | .type _ => family = .square
  | .group _ _ _ => False
  | .tuple bracket elements _ => bracket = family ∧ AreElements family.inner elements

/-- Binders of a family, and groups among them. -/
def AreElements (family : Bracket) : List Binder → Prop
  | [] => True
  | b :: bs => (b.IsGroup ∨ b.IsOf family) ∧ AreElements family bs

end

/-- What may be bound to a value: a pattern or a battern. -/
def IsBound (b : Binder) : Prop := b.IsOf .round ∨ b.IsOf .square

/-- What may be the domain of a function type: a battern or an implicit. -/
def IsTypeDomain (b : Binder) : Prop := b.IsOf .square ∨ b.IsOf .curly

/-- What may be the domain of a function: a binder of any family. -/
def IsDomain (b : Binder) : Prop := ∃ family, b.IsOf family

theorem areElements_iff {family : Bracket} {bs : List Binder} :
    AreElements family bs ↔ ∀ b ∈ bs, b.IsGroup ∨ b.IsOf family := by
  induction bs with
  | nil => simp [AreElements]
  | cons b bs ih => simp [AreElements, ih]

theorem isOf_typed {family : Bracket} (hf : family ≠ .curly) {i : Ident} (h : i.WellFormed)
    (ty : Expr) (place : Span) : (typed i ty place).IsOf family := by
  simp [IsOf, hf, h]

theorem isOf_type (ty : Expr) : (type ty).IsOf .square := by simp [IsOf]

theorem isOf_name {i : Ident} (h : i.WellFormed) : (name i).IsOf .round := by simp [IsOf, h]

theorem isOf_tuple {family : Bracket} {bs : List Binder}
    (h : ∀ b ∈ bs, b.IsGroup ∨ b.IsOf family.inner) (place : Span) :
    (tuple family bs place).IsOf family := by
  simp [IsOf, areElements_iff.2 h]

end Binder

/-! ## Expressions -/

def Form.isBlock : Form → Bool
  | .block _ _ => true
  | _ => false

/-- What is well-formed in an expression besides the expressions in it. -/
def Form.WellFormed : Form → Prop
  | .ident name => name ∉ Token.reserved
  | .block declarations body => declarations ≠ [] ∧ body.form.isBlock = false
  | .pi .arrow domain codomain => domain.IsTypeDomain ∧ domain.isTuple ∧ codomain.isSome
  | .pi .cn domain codomain => domain.IsTypeDomain ∧ codomain = none
  | .pi .fn domain _ => domain.IsTypeDomain
  | .lambda .lm domains _ _ => domains ≠ [] ∧ ∀ b ∈ domains, b.IsDomain
  | .lambda .cn domains codomain _ =>
    domains ≠ [] ∧ (∀ b ∈ domains, b.IsOf .round) ∧ codomain = none
  | .ret binder _ _ _ => binder.IsBound
  | .array sizes _ => sizes ≠ []
  | .sigma binder label => binder.IsOf .square ∧ binder.isTuple ∧ ∀ n ∈ label, n.WellFormed
  | .match_ _ arms => ∀ a ∈ arms, a.binder.IsBound
  | _ => True

/-- The annex that an expression is. A parenthesis behind it is an argument, so only its path
    is kept. -/
def Expr.annex? (e : Expr) : Option Annex :=
  match e.form with
  | .annex path => some ⟨path, [], e.span⟩
  | _ => none

structure Expr.WellFormed (e : Expr) : Prop where
  form : e.form.WellFormed
  annex : ∀ a ∈ e.annex?, a.WellFormed ∧ a.subtags = []

/-- An infix form has no names or binders of its own. -/
theorem Form.wellFormed_of_operator? {form : Form} {op : Operator}
    (h : form.operator? = some op) : form.WellFormed ∧ form.isBlock = false := by
  cases form <;> first | exact ⟨trivial, rfl⟩ | cases h

theorem Expr.wellFormed_of_form {e : Expr} (h : e.form.WellFormed) : e.WellFormed where
  form := h
  annex := by
    intro a ha
    obtain ⟨form, place⟩ := e
    cases form with
    | annex path =>
        obtain rfl := Option.some.inj ha
        exact ⟨⟨fun _ => rfl, by simp⟩, rfl⟩
    | _ => cases ha

/-! ## Declarations -/

structure Lam.WellFormed (l : Lam) : Prop where
  name : l.name.WellFormed
  params : ∀ p ∈ l.params, p.domain.IsDomain

namespace DeclForm

/-- The number of arguments that an axiom takes one by one. -/
def curry? : DeclForm → Option Nat
  | .axm _ _ _ options => options.map Prod.fst
  | _ => none

/-- The trip name of an axiom. -/
def trip? : DeclForm → Option Ident
  | .axm _ _ _ options => options.bind Prod.snd
  | _ => none

/-- What is well-formed in a declaration besides the expressions in it. -/
def WellFormed : DeclForm → Prop
  | .axm name _ normalizer options => name.WellFormed ∧ (∀ i ∈ normalizer, i.WellFormed) ∧
      ∀ i ∈ options.bind Prod.snd, i.WellFormed
  | .cfun domain _ => domain.IsOf .square
  | .ccon domain => domain.IsOf .square
  | .letAnnex target _ => target.WellFormed
  | .let_ target _ => target.IsBound
  | .rec_ bindings last => bindings ≠ [] ∧ (∀ b ∈ bindings, b.name.WellFormed) ∧
      ∀ l ∈ last, l.WellFormed
  | .lam l => l.WellFormed
  | .rule _ binder _ _ _ => binder.IsBound
  | .error => True

end DeclForm

structure Decl.WellFormed (d : Decl) : Prop where
  form : d.form.WellFormed
  curry : d.form.trip?.isSome → d.form.curry?.isSome

/-- The type of an axiom leaves no trip name without a count. -/
theorem Decl.wellFormed_of_form {d : Decl} (h : d.form.WellFormed) : d.WellFormed where
  form := h
  curry := by
    obtain ⟨doc, form, place⟩ := d
    cases form with
    | axm name ty normalizer options => cases options <;> simp [DeclForm.trip?, DeclForm.curry?]
    | _ => simp [DeclForm.trip?]

structure Node.WellFormed (n : Node) : Prop where
  expr : ∀ e ∈ n.expr?, e.WellFormed
  decl : ∀ d ∈ n.decl?, d.WellFormed

/-! ## The names in a text -/

namespace Scan

open Shape

variable {c : Char} {cs : List Char} {name word : String}

/-- A word that is read as a name is none of the words that mean something else. -/
theorem ofWord_ident (h : Token.ofWord word = .ident name) : name = word ∧
    word ∉ ["tt", "ff"] ++ Keyword.all.map Keyword.text ++ Keyword.aliases.map Prod.fst ++
      Primitive.words.map Primitive.text := by
  unfold Token.ofWord at h
  split at h
  · cases h
  · next yes =>
      split at h
      · cases h
      · next no =>
          split at h
          · cases h
          · next keyword =>
              split at h
              · cases h
              · next primitive =>
                  rw [Option.orElse_eq_none] at keyword
                  refine ⟨(Token.ident.inj h).symm, ?_⟩
                  simp only [List.mem_append, not_or]
                  refine ⟨⟨⟨by simp [yes, no], ?_⟩, ?_⟩, ?_⟩
                  · simpa using keyword.1
                  · intro mem
                    obtain ⟨spelled, hs, rfl⟩ := List.mem_map.1 mem
                    simpa using List.lookup_eq_none_iff.1 keyword.2 spelled hs
                  · simpa using primitive

theorem intToken_ne_ident (text : List Char) : intToken text ≠ .ident name := by
  unfold intToken
  split <;> simp

theorem number_ne_ident (text : List Char) (length : Nat) (isReal : Bool) :
    (number text length isReal).token? ≠ some (.ident name) := by
  unfold number
  dsimp only
  split
  · simp [Taken.token, intToken_ne_ident]
  · split
    · simp [Taken.token]
    · split
      · simp [intToken_ne_ident]
      · simp [Taken.token]

theorem sign_ne_ident (text : List Char) : (sign text).token? ≠ some (.ident name) := by
  have fixed : ∀ s ∈ Token.signs, s.2.kind ≠ .identifier := by decide +kernel
  rw [sign_eq]
  intro token
  have same := Option.some.inj token
  rcases longest_mem text Token.signs ([], .error .unrecognizedToken) with eq | mem
  · rw [eq] at same
    cases same
  · exact fixed _ mem (congrArg Token.kind same)

theorem percent_ne_ident (cs : List Char) : (percent cs).token? ≠ some (.ident name) := by
  simp only [percent]
  split
  · simp [Taken.token]
  · split
    · split
      · simp [Taken.token]
      · split
        · split <;> simp [Taken.token]
        · simp [Taken.token]
    · simp [Taken.token]

/-- A name is a whole word. -/
theorem first_ident (h : (first c cs).token? = some (.ident name)) : isWordStart c ∧
    Token.ofWord (String.ofList (c :: cs.take (run isWordChar cs))) = .ident name := by
  rcases lead_cases c with blank | word | rfl | rfl | rfl | rfl | sign
  · rw [first_blank blank] at h
    cases h
  · rw [first_word word] at h
    exact ⟨word, Option.some.inj h⟩
  · rw [first_percent] at h
    exact absurd h (percent_ne_ident cs)
  · rw [first_string] at h
    unfold string at h
    dsimp only at h
    split at h <;> cases h
  · rw [first_char] at h
    unfold char at h
    split at h
    · split at h <;> cases h
    · split at h <;> cases h
    · cases h
  · rw [first_slash] at h
    unfold slash at h
    split at h
    · cases h
    · cases h
    · split at h <;> cases h
    · cases h
  · rw [first_sign sign] at h
    split at h
    · exact absurd h (number_ne_ident _ _ _)
    · exact absurd h (sign_ne_ident _)

/-- No name is spelled as anything else. -/
theorem ident_not_reserved (h : (first c cs).token? = some (.ident name)) :
    name ∉ Token.reserved := by
  have ⟨start, whole⟩ := first_ident h
  obtain ⟨rfl, free⟩ := ofWord_ident whole
  have lead : ∀ s ∈ Token.signs, s.1.head?.any isWordStart = false := by decide +kernel
  rw [Token.reserved, List.mem_append, not_or]
  refine ⟨free, fun spelled => ?_⟩
  obtain ⟨s, hs, eq⟩ := List.mem_map.1 spelled
  have letter := lead s hs
  rw [String.ofList_inj.1 eq] at letter
  simp [start] at letter

end Scan

/-- None of the names among some items is reserved. -/
def Item.AreNamed (items : List Item) : Prop :=
  ∀ i ∈ items, ∀ name, i.token = .ident name → name ∉ Token.reserved

theorem Lexeme.ident_not_reserved {place : Place} {cs : List Char} {x : Lexeme} {name : String}
    (hx : x ∈ lexemesFrom place cs) (token : x.token = .ident name) : name ∉ Token.reserved := by
  induction cs using Scan.induction generalizing place with
  | nil => simp at hx
  | cons c cs ih =>
      rw [lexemesFrom_cons] at hx
      rcases List.mem_append.1 hx with hx | hx
      · obtain ⟨found, read, rfl⟩ := Option.map_eq_some_iff.1 (Option.mem_toList.1 hx)
        exact Scan.ident_not_reserved (read.trans (congrArg some token))
      · exact ih hx

theorem Item.areNamed_lexemes (text : String) : AreNamed (ofLexemes (lexemes text)) := by
  intro i hi name token
  obtain ⟨x, hx, -, same, -⟩ := exists_lexeme hi
  exact Lexeme.ident_not_reserved hx (same.trans token)

end Mim
