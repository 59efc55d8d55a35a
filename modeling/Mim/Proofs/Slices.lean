import Mim.Proofs.Nesting
import Mim.Proofs.RoundTrip
import Mim.Proofs.Shifted

/-! # Spans are faithful

The text under the span of an expression is the text of that expression: it has the same
tokens by itself, and the same expression is read from them, whatever stood around it.
-/

namespace Mim

open Grammar Token
open Nested (full)

/-- The part of a text that a span covers. -/
def Span.slice (place : Span) (text : String) : String :=
  String.Pos.Raw.extract text ⟨place.start⟩ ⟨place.stop⟩

/-- The span starts and ends between two characters of the text. -/
def Span.Cuts (place : Span) (text : String) : Prop :=
  ∃ before behind : String, text = before ++ place.slice text ++ behind ∧
    before.utf8ByteSize = place.start

/-! ## Read again by itself -/

namespace Grammar

/-- A larger expression, where there must be an operator. -/
def extended (lhs : Expr) : Parser Expr := do
  match ← extend? full .bottom lhs with
  | some e => return e
  | none => unexpected "operator"

theorem extended_ok {lhs e : Expr} {s s' : Reading} (run : extended lhs s = .ok e s') :
    extend? full .bottom lhs s = .ok (some e) s' := by
  obtain ⟨r, s₁, first, rest⟩ := bind_ok.1 run
  cases r with
  | none => cases rest
  | some b =>
      obtain ⟨rfl, rfl⟩ := pure_ok.1 rest
      exact first

theorem grows_of_reaches {α : Type} {step : α → Parser (Option α)} {a b c : α} {s s₁ s' : Reading}
    (reaches : Reaches step a s b s₁) (grows : Grows step b s₁ c s') : Grows step a s c s' := by
  induction reaches with
  | refl => exact grows
  | more _ step ih => exact ih (.more step grows)

/-- An operand with whatever operators have been read after it is read again where nothing is
    wanted of the operators. -/
theorem between_spells {m : Mode} {n : Nat} {e : Expr} {s s' : Reading} (between : e.IsBetween n s s') :
    ∃ q : Parser Expr, (∀ {u e' u'}, q u = .ok e' u' → ∃ lhs u₁,
        operand full .bottom u = .ok lhs u₁ ∧ Reaches (extend? full .bottom) lhs u₁ e' u') ∧
      Spelled m .phrase [] e.layout.tokens s e s' q := by
  obtain ⟨least, lhs, s₁, first, reaches⟩ := between
  induction reaches with
  | refl =>
      exact ⟨operand full .bottom, fun run => ⟨_, _, run, .refl⟩,
        operand_spells (Nested.spelled_upTo n) least .bottom (P := Simulation.Anywhere) s _ _ trivial first⟩
  | more _ step ih =>
      obtain ⟨q, reads, written⟩ := ih first
      refine ⟨q >>= extended, fun {u e' u'} run => ?_, written.bind fun lhs' same => ?_⟩
      · obtain ⟨a, u₁, start, last⟩ := bind_ok.1 run
        obtain ⟨lhs, u₀, operand, reaches⟩ := reads start
        exact ⟨lhs, u₀, operand, .more reaches (extended_ok last)⟩
      · have wanted : ∀ op : Operator, op.prec < .bottom → op.prec < least := fun op weak => by
          cases op <;> exact absurd weak (by decide)
        have more := extend?_some_spells (Nested.spelled_upTo n) wanted same step
        refine (more.weaken id Grade.IsLoose.loosen).append Looks.follow fun r hr => ?_
        obtain ⟨b, rfl, same'⟩ := hr.of_some
        exact SpelledIf.pure same'

/-- An expression is read from its own items. -/
theorem expr_alone {n : Nat} {e : Expr} {s s' : Reading} {cs : List Item}
    (between : e.IsBetween n s s') (after : s.After cs s') (clean : Clean s s') :
    ∃ u', full.expr .bottom ⟨cs, s.lastEnd, []⟩ = .ok e u' ∧ u'.rest = [] := by
  obtain ⟨q, reads, written⟩ := between_spells (m := .exact) between
  obtain ⟨e', u', run, same, rest, -⟩ := written.rereads clean trivial after.rest rfl
    (u := ⟨cs, s.lastEnd, []⟩) rfl (List.append_nil cs).symm (.inr (.inr rfl)) rfl
  obtain rfl : e' = e := by
    rw [← Spanned.respan_id e', ← Spanned.respan_id e]
    exact same
  obtain ⟨lhs, u₁, first, reaches⟩ := reads run
  have stop : extend? full .bottom e' u' = .ok none u'.noted := by
    refine extend?_ok.2 (.inl ⟨fun op hop => ?_, rfl, rfl⟩)
    rw [Reading.operator?, Reading.token?_eq_none.2 rest] at hop
    cases hop
  refine ⟨u'.noted, ?_, u'.rest_noted.trans rest⟩
  rw [Nested.full_expr]
  refine bind_ok.2 ⟨lhs, u₁, first, ?_⟩
  exact (grow_ok fun _ => extend?_advances Nested.nests_full_self).2 (grows_of_reaches reaches (.stop stop))

end Grammar

/-! ## Expressions over items -/

/-- An expression has the span of the items it was read from. -/
theorem Expr.IsBetween.span_over {n : Nat} {s s' : Reading} {e : Expr} {cs : List Item}
    (h : e.IsBetween n s s') (after : s.After cs s') : e.span.Over cs := by
  obtain ⟨least, lhs, s₁, first, reaches⟩ := h
  obtain ⟨place, ds, after', firm, -⟩ := reaches_lays (lays_upTo n) first reaches
  obtain rfl : cs = ds := List.append_cancel_right (after.rest.symm.trans after'.rest)
  rw [place]
  exact after.spanFrom_over (Ending.IsFilled.ne_nil .firm firm)

/-! ## The tokens of a part of a text -/

/-- In a layout, something may stand behind each piece. -/
theorem Layout.Fits.joins {l : Layout} (h : l.Fits) {p : Piece} (hp : p ∈ l) : ∃ q, p.joins q := by
  obtain ⟨front, back, rfl⟩ := List.append_of_mem hp
  have whole : List.IsChain (Piece.joins · ·) ((.sign .leftBrace :: front) ++ p :: (back ++ [.sign .comma])) := by
    simpa [Fits] using h
  have behind := (List.isChain_append.1 whole).2.1
  cases back with
  | nil => exact ⟨_, (List.isChain_cons_cons.1 behind).1⟩
  | cons q back => exact ⟨q, (List.isChain_cons_cons.1 behind).1⟩

/-- A text without errors has no point that stands by itself. -/
theorem no_point {text : String} (h : (Source.ofText text).hasErrors = false) :
    .symbol .dot ∉ tokensOf text := by
  intro point
  have solid : .symbol .dot ∈ undoc (tokensOf text) := List.mem_filter.2 ⟨point, rfl⟩
  have kept := mem_essential (fun _ _ => rfl) solid false
  rw [layout_alike h] at kept
  have written := (List.mem_filter.1 ((essential_sublist _ _).subset kept)).1
  obtain ⟨p, hp, token⟩ := List.mem_filterMap.1 written
  obtain rfl : p = .token (.symbol .dot) := by
    cases p <;> first | exact congrArg Piece.token (Option.some.inj token) | cases token
  obtain ⟨q, joins⟩ := (File.fits (Source.ofText text).file).joins hp
  cases joins

/-- Some of what is left of a list is left of a part of it, from its first to its last. -/
theorem List.exists_infix_of_filter {α : Type} {p : α → Bool} {xs cs : List α}
    (h : cs <:+: xs.filter p) (ne : cs ≠ []) :
    ∃ ms, ms <:+: xs ∧ ms.filter p = cs ∧ ms.head? = cs.head? ∧ ms.getLast? = cs.getLast? := by
  obtain ⟨as, bs, eq⟩ := h
  obtain ⟨left, right, rfl, first, -⟩ := List.filter_eq_append_iff.1 eq.symm
  obtain ⟨before, mid, rfl, -, first⟩ := List.filter_eq_append_iff.1 first
  obtain ⟨x, cs, rfl⟩ := List.exists_cons_of_ne_nil ne
  obtain ⟨before', mid, rfl, -, hx, rest⟩ := List.filter_eq_cons_iff.1 first
  rcases List.eq_nil_or_concat' cs with rfl | ⟨init, y, rfl⟩
  · exact ⟨[x], ⟨before ++ before', mid ++ right, by simp⟩, by simp [hx], rfl, rfl⟩
  · obtain ⟨mid, behind, rfl, inner, last⟩ := List.filter_eq_append_iff.1 rest
    obtain ⟨mid', behind, rfl, none, hy, -⟩ := List.filter_eq_cons_iff.1 last
    refine ⟨x :: (mid ++ mid' ++ [y]), ⟨before ++ before', behind ++ right, by simp⟩, ?_, rfl, ?_⟩
    · simp [hx, hy, inner, List.filter_eq_nil_iff.2 none]
    · simp [List.getLast?_cons]

namespace Lexeme

theorem Shifted.solid {n : Nat} {xs ys : List Lexeme} (h : Shifted n xs ys) :
    Shifted n (solid xs) (solid ys) := by
  induction xs generalizing ys with
  | nil =>
      obtain rfl := List.map_eq_nil_iff.1 h
      rfl
  | cons x xs ih =>
      obtain ⟨y, ys, rfl, hy, hys⟩ := List.map_eq_cons_iff.1 h
      have token : y.token = x.token := congrArg Prod.fst hy
      have rest := ih hys
      unfold Lexeme.solid at rest ⊢
      rw [List.filter_cons, List.filter_cons, token]
      split
      · exact congrArg₂ List.cons hy rest
      · exact rest

/-- A part of a text, from the start of a lexeme to the end of another, has the lexemes that
    it has in the whole text. -/
theorem slice_shifted {text : String} {xs : List Lexeme} {x y : Lexeme} (part : xs <:+: lexemes text)
    (first : xs.head? = some x) (last : xs.getLast? = some y) (clean : AreClean xs)
    (point : ∀ x ∈ xs, x.token ≠ .symbol .dot) :
    Span.Cuts ⟨x.span.start, y.span.stop⟩ text ∧
      Shifted x.span.start (lexemes (Span.slice ⟨x.span.start, y.span.stop⟩ text)) xs := by
  obtain ⟨before, behind, eq⟩ := part
  obtain ⟨rest, rfl⟩ := List.head?_eq_some_iff.1 first
  have whole : lexemesFrom Place.first text.toList = before ++ x :: (rest ++ behind) := by
    rw [show lexemesFrom Place.first text.toList = lexemes text from rfl, ← eq]
    simp
  obtain ⟨pre, post, split, start, here⟩ := lexemesFrom_from whole
  obtain ⟨mid, post, rfl, stop, same, -⟩ := lexemesFrom_upTo here last clean point
  have offset : String.utf8Len pre = x.span.start := by
    rw [← start, Place.offset_after]
    exact (Nat.zero_add _).symm
  have slice : Span.slice ⟨x.span.start, y.span.stop⟩ text = String.ofList mid := by
    have stop : y.span.stop = String.utf8Len pre + String.utf8Len mid := by
      rw [← stop, Place.offset_after, start, offset]
    rw [Span.slice, stop, ← offset, ← String.ofList_toList (s := text), split, ← List.append_assoc,
      String.extract_of_valid]
  have cuts : Span.Cuts ⟨x.span.start, y.span.stop⟩ text := by
    refine ⟨String.ofList pre, String.ofList post, ?_, ?_⟩
    · rw [slice, ← String.ofList_append, ← String.ofList_append, List.append_assoc, ← split,
        String.ofList_toList]
    · rw [String.utf8ByteSize_ofList, offset]
  refine ⟨cuts, ?_⟩
  have moved := lexemesFrom_shifted (p := Place.first) (q := Place.first.after pre)
    (start.trans (Nat.zero_add _).symm) mid
  rw [slice, lexemes, String.toList_ofList]
  exact same.symm.trans moved

end Lexeme

/-- The items of lexemes further on, doc comments aside. -/
theorem Item.ofLexemes_undocumented {n : Nat} {xs ys : List Lexeme}
    (h : Lexeme.Shifted n (Lexeme.solid xs) (Lexeme.solid ys)) :
    respan Change.id.undocumented (ofLexemes ys) =
      respan (Change.shift n).undocumented (ofLexemes xs) := by
  have left := map_ofLexemesAfter (fun t place => (⟨t, place, none⟩ : Item)) ys []
  have right := map_ofLexemesAfter (fun t place => (⟨t, place.shift n, none⟩ : Item)) xs []
  have same := congrArg (List.map fun p => (⟨p.1, p.2, none⟩ : Item)) h
  rw [List.map_map, List.map_map] at same
  exact left.trans (same.trans right.symm)

/-- The items that an expression was read from are those of some lexemes in a row. -/
theorem Item.exists_lexemes {xs : List Lexeme} {before cs behind : List Item}
    (split : ofLexemes xs = before ++ cs ++ behind) (ne : cs ≠ []) :
    ∃ ms, ms <:+: xs ∧
      (Lexeme.solid ms).map (fun x => (x.token, x.span)) = cs.map (fun i => (i.token, i.span)) ∧
      ms.head?.map Lexeme.span = cs.head?.map Item.span ∧
      ms.getLast?.map Lexeme.span = cs.getLast?.map Item.span := by
  have solid : (Lexeme.solid xs).map (fun x => (x.token, x.span)) = _ :=
    (map_ofLexemesAfter Prod.mk xs []).symm
  rw [show ofLexemesAfter [] xs = _ from split, List.map_append, List.map_append] at solid
  obtain ⟨left, right, eq, first, -⟩ := List.map_eq_append_iff.1 solid
  obtain ⟨left, part, rfl, -, same⟩ := List.map_eq_append_iff.1 first
  have infixed : part <:+: xs.filter fun x => !x.token.isDoc := ⟨left, right, eq.symm⟩
  obtain ⟨ms, hms, kept, head, last⟩ := List.exists_infix_of_filter infixed fun nil => ne (by
    rw [nil] at same
    exact List.map_eq_nil_iff.1 same.symm)
  have spans : part.map Lexeme.span = cs.map Item.span := by
    have := congrArg (List.map Prod.snd) same
    rwa [List.map_map, List.map_map] at this
  refine ⟨ms, hms, by rwa [show Lexeme.solid ms = part from kept], ?_, ?_⟩
  · rw [head, ← List.head?_map, spans, List.head?_map]
  · rw [last, ← List.getLast?_map, spans, List.getLast?_map]

/-- What is read from items is read from the same items elsewhere, with other doc comments. -/
theorem Grammar.expr_moved {n lastEnd : Nat} {items cs : List Item} {e : Expr} {u : Reading}
    (run : full.expr .bottom ⟨cs, lastEnd, []⟩ = .ok e u) (read : u.rest = [])
    (same : respan Change.id.undocumented cs = respan (Change.shift n).undocumented items)
    (short : lastEnd ≤ n) (ne : cs ≠ []) :
    ∃ e' s', expression (Reading.start items) = .ok e' s' ∧ s'.rest = [] ∧
      respan (Change.shift n).undocumented e' = respan Change.id.undocumented e := by
  have here : (Simulation.shifted 0 false []).rel ⟨cs, lastEnd, []⟩
      ⟨respan Change.id.undocumented cs, lastEnd, []⟩ := ⟨⟨rfl, rfl⟩, .inl rfl⟩
  have there : (Simulation.shifted n false []).rel (Reading.start items)
      ⟨respan Change.id.undocumented cs, lastEnd, []⟩ := by
    refine ⟨⟨same, rfl⟩, .inr ⟨rfl, short, fun none => ?_⟩⟩
    rw [show items = [] from none] at same
    exact ne (List.map_eq_nil_iff.1 same)
  have agree := Nested.nests_full_self.expr .bottom _ _ here trivial (Nat.lt_succ_self _)
  have agree' := Nested.nests_full_self.expr .bottom _ _ there trivial (Nat.lt_succ_self _)
  rw [run] at agree
  cases run' : full.expr .bottom ⟨respan Change.id.undocumented cs, lastEnd, []⟩ with
  | error e' u' =>
      rw [run'] at agree
      exact agree.elim
  | ok e₁ u' =>
      rw [run'] at agree agree'
      obtain ⟨rfl, moved, -⟩ := agree
      cases run'' : full.expr .bottom (Reading.start items) with
      | error e' s' =>
          rw [run''] at agree'
          exact agree'.elim
      | ok e' s' =>
          rw [run''] at agree'
          obtain ⟨eq, moved', -⟩ := agree'
          refine ⟨e', s', run'', ?_, eq.symm⟩
          have rest := moved.rest
          rw [read] at rest
          exact List.map_eq_nil_iff.1 (moved'.rest.symm.trans rest)

/-- Each expression in the tree of a text without errors is what is read from the part of the
    text under its span: all of that part is read, and the result is the expression, as far
    in front as it stands in the part, and doc comments aside. -/
theorem spans_are_faithful (text : String) (h : (Source.ofText text).hasErrors = false) :
    ∀ n ∈ (Source.ofText text).file.node.all, ∀ e ∈ n.expr?, e.span.Cuts text ∧
      ∃ e' s', expression (Source.reading (e.span.slice text)) = .ok e' s' ∧ s'.rest = [] ∧
        respan (Change.shift e.span.start).undocumented e' = respan Change.id.undocumented e := by
  intro n hn e he
  have tidy : Tidy Item.span (Item.ofLexemes (lexemes text)) :=
    Item.ofLexemes_tidy Place.first text.toList
  obtain ⟨covers, -, -⟩ := Reading.file_covers (Item.ofLexemes (lexemes text))
  rw [Node.all_eq] at hn
  rcases List.mem_cons.1 hn with rfl | hn
  · cases he
  obtain ⟨ds, read⟩ := covers.isReadFrom n hn
  obtain ⟨s₁, s₂, before, behind, first, after, last, k, between⟩ := read.expr e he
  -- The items of the expression, among those of the text.
  have split : Item.ofLexemes (lexemes text) = before ++ ds ++ behind := by
    have read : (Reading.start (Item.ofLexemes (lexemes text))).file.2.rest = [] :=
      (Source.reading text).fileParts_ok.1
    have whole := ((first.trans after).trans last).rest
    rwa [read, List.append_nil] at whole
  rw [split] at tidy
  have inner : Tidy Item.span ds :=
    tidy.sublist ((List.sublist_append_right before ds).trans (List.sublist_append_left _ behind))
  obtain ⟨i, j, hi, hj, start, stop⟩ := between.span_over after
  have ne : ds ≠ [] := fun nil => by simp [nil] at hi
  have stop := stop (Nat.le_of_lt (inner.start_le_stop hi (List.mem_of_getLast? hj)).2)
  -- Nothing is wrong while it is read, so it is read from them alone.
  have clean := (clean_reading h).split (first.trans after).rest last.recorded
  have clean := clean.1.split first.rest after.recorded
  obtain ⟨u, run, read⟩ := expr_alone between after clean.2
  have short : s₁.lastEnd ≤ e.span.start := by
    rw [first.lastEnd, start]
    cases hb : before.getLast? with
    | none =>
        rw [List.getLast?_eq_none_iff.1 hb]
        exact Nat.zero_le _
    | some b =>
        rw [Item.endAfter_of_getLast? hb]
        exact (List.pairwise_append.1 (List.pairwise_append.1 tidy.ordered).1).2.2 b
          (List.mem_of_getLast? hb) i (List.mem_of_head? hi)
  -- The part of the text has the same tokens.
  obtain ⟨ms, part, solid, head, final⟩ := Item.exists_lexemes split ne
  rw [hi] at head
  rw [hj] at final
  obtain ⟨x, hx, xi⟩ := Option.map_eq_some_iff.1 head
  obtain ⟨y, hy, yj⟩ := Option.map_eq_some_iff.1 final
  have place : e.span = ⟨x.span.start, y.span.stop⟩ := by
    rw [xi, yj, ← start, ← stop]
  have member : ∀ z ∈ ms, z.token ∈ tokensOf text := fun z hz => List.mem_map_of_mem (part.subset hz)
  obtain ⟨cuts, moved⟩ := Lexeme.slice_shifted part hx hy
    (fun z hz reason => clean_tokens h _ (member z hz) reason)
    fun z hz point => no_point h (point ▸ member z hz)
  rw [← place] at cuts moved
  rw [show x.span.start = e.span.start from by rw [place]] at moved
  refine ⟨cuts, expr_moved run read ?_ short ne⟩
  rw [← Item.ofLexemes_undocumented moved.solid]
  have bare := Item.map_ofLexemesAfter (fun t place => (⟨t, place, none⟩ : Item)) ms []
  have same := congrArg (List.map fun p => (⟨p.1, p.2, none⟩ : Item)) solid
  rw [List.map_map, List.map_map] at same
  exact (bare.trans same).symm

/-- The second argument of an application, with a documented declaration in it. -/
theorem spans_are_faithful_argument :
    (Source.ofText "let x = f 1.5 (/// d\nlet y = 2; y)").hasErrors = false ∧
      ∃ n ∈ (Source.ofText "let x = f 1.5 (/// d\nlet y = 2; y)").file.node.all, ∃ e ∈ n.expr?,
        e.span = ⟨14, 34⟩ ∧ e.span.Cuts "let x = f 1.5 (/// d\nlet y = 2; y)" ∧
        ∃ e' s', expression (Source.reading (e.span.slice "let x = f 1.5 (/// d\nlet y = 2; y)")) =
            .ok e' s' ∧ s'.rest = [] ∧
          respan (Change.shift e.span.start).undocumented e' = respan Change.id.undocumented e := by
  have clean : (Source.ofText "let x = f 1.5 (/// d\nlet y = 2; y)").hasErrors = false := by
    decide +kernel
  obtain ⟨n, hn, e, he, place⟩ : ∃ n ∈ (Source.ofText "let x = f 1.5 (/// d\nlet y = 2; y)").file.node.all,
      ∃ e ∈ n.expr?, e.span = ⟨14, 34⟩ := by decide +kernel
  exact ⟨clean, n, hn, e, he, place, spans_are_faithful _ clean n hn e he⟩

end Mim
