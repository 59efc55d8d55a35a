import Mim.Proofs.Spells.Loops

/-! # The tokens of a layout

Which tokens a layout has, told for each form from the tokens of its parts.
-/

namespace Mim

/-- The token that a piece of a layout is. -/
def Piece.token? : Piece → Option Token
  | .token t => some t
  | .gap | .line | .placeholder => none

/-- Each after the first has the separator in front of it. -/
theorem Token.intercalate_cons (separator l : List Token) (ls : List (List Token)) :
    separator.intercalate (l :: ls) = l ++ ls.flatMap (separator ++ ·) := by
  induction ls generalizing l with
  | nil => simp
  | cons l' ls ih => rw [List.intercalate_cons_cons, ih, List.flatMap_cons, List.append_assoc,
      List.append_assoc]

theorem Token.intercalate_nil : ∀ ls : List (List Token), ([] : List Token).intercalate ls = ls.flatten
  | [] => rfl
  | l :: ls => by simp [intercalate_cons, List.flatMap_def]

namespace Layout

/-- The tokens of a layout. -/
def tokens (l : Layout) : List Token := l.filterMap Piece.token?

@[simp] theorem tokens_nil : tokens [] = [] := rfl

@[simp] theorem tokens_token (t : Token) (l : Layout) : tokens (.token t :: l) = t :: tokens l := rfl

@[simp] theorem tokens_word (k : Keyword) (l : Layout) :
    tokens (.word k :: l) = .keyword k :: tokens l := rfl

@[simp] theorem tokens_sign (s : Symbol) (l : Layout) :
    tokens (.sign s :: l) = .symbol s :: tokens l := rfl

@[simp] theorem tokens_gap (l : Layout) : tokens (.gap :: l) = tokens l := rfl

@[simp] theorem tokens_line (l : Layout) : tokens (.line :: l) = tokens l := rfl

@[simp] theorem tokens_append (l l' : Layout) : tokens (l ++ l') = tokens l ++ tokens l' :=
  List.filterMap_append ..

@[simp] theorem tokens_spaced (t : Token) : tokens (spaced t) = [t] := rfl

theorem tokens_flatMap {α : Type} (f : α → Layout) (as : List α) :
    tokens (as.flatMap f) = as.flatMap fun a => tokens (f a) := by
  induction as with
  | nil => rfl
  | cons a as ih => rw [List.flatMap_cons, List.flatMap_cons, tokens_append, ih]

theorem tokens_join (separator : Layout) :
    ∀ ls : List Layout, tokens (join separator ls) = separator.tokens.intercalate (ls.map tokens)
  | [] => rfl
  | [l] => by simp [join]
  | l :: l' :: ls => by
      have ih := tokens_join separator (l' :: ls)
      simp only [List.map_cons] at ih
      simp only [join, tokens_append, List.map_cons, List.intercalate_cons_cons, ih]

theorem tokens_commas (ls : List Layout) :
    tokens (commas ls) = [.symbol .comma].intercalate (ls.map tokens) := tokens_join _ ls

end Layout

open Layout

@[simp] theorem Ident.tokens_layout (i : Ident) : i.layout.tokens = [.ident i.name] := rfl

theorem Subtag.tokens_layout (t : Subtag) :
    t.layout.tokens = .ident t.tag.name ::
      t.aliases.flatMap fun a => [.symbol .assign, .ident a.name] := by
  rw [layout, tokens_append, tokens_flatMap]
  rfl

theorem Annex.tokens_layout (a : Annex) :
    a.layout.tokens = .annex a.path :: if a.subtags.isEmpty then [] else
      .symbol .leftParen :: [.symbol .comma].intercalate (a.subtags.map fun t => t.layout.tokens) ++
        [.symbol .rightParen] := by
  rw [layout, tokens_token]
  split
  · rfl
  · rw [List.cons_append, tokens_sign, tokens_append, tokens_commas, List.map_map]
    rfl

theorem Expr.layouts_eq (es : List Expr) : Expr.layouts es = es.map Expr.layout := by
  induction es with
  | nil => rfl
  | cons e es ih => exact congrArg (e.layout :: ·) ih

theorem Binder.layouts_eq (bs : List Binder) : Binder.layouts bs = bs.map Binder.layout := by
  induction bs with
  | nil => rfl
  | cons b bs ih => exact congrArg (b.layout :: ·) ih

theorem Expr.tokens_layoutAfter (lead : Layout) (e : Option Expr) :
    (Expr.layoutAfter lead e).tokens = e.elim [] fun e => lead.tokens ++ e.layout.tokens := by
  cases e <;> simp [Expr.layoutAfter]

theorem Binder.tokens_layoutEach (bs : List Binder) :
    (Binder.layoutEach bs).tokens = bs.flatMap fun b => b.layout.tokens := by
  induction bs with
  | nil => rfl
  | cons b bs ih => simp [Binder.layoutEach, ih]

theorem Decl.tokens_innerLayout (ds : List Decl) :
    (Decl.innerLayout ds).tokens = ds.flatMap fun d => d.layout.tokens ++ [.symbol .semicolon] := by
  induction ds with
  | nil => rfl
  | cons d ds ih => simp [Decl.innerLayout, ih]

/-- The tokens of the lines of a doc comment. -/
theorem tokens_docLayout (doc : Option String) :
    (docLayout doc).tokens =
      (docLines (doc.getD "").toList).map fun line => .doc (String.ofList line) := by
  rw [docLayout, tokens_flatMap]
  exact List.map_eq_flatMap.symm

def Arm.tokens (a : Arm) : List Token :=
  a.binder.layout.tokens ++ .symbol .fatArrow :: a.body.layout.tokens

theorem Arm.tokens_layouts (arms : List Arm) :
    (Arm.layouts arms).map Layout.tokens = arms.map Arm.tokens := by
  induction arms with
  | nil => rfl
  | cons arm arms ih =>
      cases arm
      simp [Arm.layouts, Arm.tokens, ih]

def RecBinding.tokens (b : RecBinding) : List Token :=
  b.name.layout.tokens ++ (b.ty.elim [] fun ty => .symbol .colon :: ty.layout.tokens) ++
    .symbol .assign :: b.value.layout.tokens

theorem RecBinding.tokens_layouts (bs : List RecBinding) :
    (RecBinding.layouts bs).map Layout.tokens = bs.map RecBinding.tokens := by
  induction bs with
  | nil => rfl
  | cons b bs ih =>
      cases b
      simp [RecBinding.layouts, RecBinding.tokens, Expr.tokens_layoutAfter, ih]

def Param.tokens (p : Param) : List Token :=
  p.domain.layout.tokens ++ p.filter.elim [] fun filter => .symbol .atSign :: filter.layout.tokens

theorem Param.tokens_layoutEach (ps : List Param) :
    (Param.layoutEach ps).tokens = ps.flatMap Param.tokens := by
  induction ps with
  | nil => rfl
  | cons p ps ih =>
      cases p
      simp [Param.layoutEach, Param.tokens, Expr.tokens_layoutAfter, ih]

end Mim
