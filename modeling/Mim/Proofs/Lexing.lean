import Mathlib.Data.String.Basic
import Mim.Item

/-! # From characters to items

What is true of the lexemes of any text: they stand one after the other, each on a byte at
least, and a text that stands elsewhere has the same lexemes there.
-/

namespace Mim

theorem Place.offset_after (p : Place) (cs : List Char) :
    (p.after cs).offset = p.offset + String.utf8Len cs := by
  induction cs generalizing p with
  | nil => rfl
  | cons c cs ih =>
      rw [String.utf8Len_cons, Nat.add_comm (String.utf8Len cs), ← Nat.add_assoc]
      exact ih (p.advance c)

namespace Scan

/-- The lexeme that is taken from a text at a place, if it is not passed over. -/
def lexeme? (place : Place) (word : List Char) (taken : Taken) : Option Lexeme :=
  taken.token?.map fun token =>
    ⟨token, place.position, ⟨place.offset, (place.after word).offset⟩, taken.beforeMember⟩

end Scan

open Scan

@[simp] theorem lexemesFrom_nil (place : Place) : lexemesFrom place [] = [] := by rw [lexemesFrom]

theorem lexemesFrom_cons (place : Place) (c : Char) (cs : List Char) :
    lexemesFrom place (c :: cs) =
      (lexeme? place (c :: cs.take (first c cs).more) (first c cs)).toList ++
        lexemesFrom (place.after (c :: cs.take (first c cs).more)) (cs.drop (first c cs).more) := by
  rw [lexemesFrom, lexeme?]
  cases (first c cs).token? <;> rfl

/-- Places that follow each other, none of them empty. -/
structure Tidy {α : Type} (place : α → Span) (xs : List α) : Prop where
  filled : ∀ x ∈ xs, (place x).start < (place x).stop
  ordered : xs.Pairwise fun x y => (place x).stop ≤ (place y).start

namespace Tidy

variable {α : Type} {place : α → Span} {xs ys : List α}

theorem sublist (h : Tidy place xs) (hs : ys.Sublist xs) : Tidy place ys :=
  ⟨fun x hx => h.filled x (hs.subset hx), h.ordered.sublist hs⟩

/-- It is told from the places alone. -/
theorem of_map_eq {β : Type} {place' : β → Span} {zs : List β} (h : xs.map place = zs.map place')
    (tidy : Tidy place xs) : Tidy place' zs := by
  have map : ∀ {γ : Type} (f : γ → Span) (l : List γ), Tidy id (l.map f) ↔ Tidy f l := by
    intro γ f l
    constructor
    · exact fun h => ⟨fun x hx => h.filled _ (List.mem_map_of_mem hx), List.pairwise_map.1 h.ordered⟩
    · exact fun h => ⟨List.forall_mem_map.2 h.filled, List.pairwise_map.2 h.ordered⟩
  exact (map _ _).1 (h ▸ (map _ _).2 tidy)

/-- The first starts before the last ends. -/
theorem start_le_stop (h : Tidy place xs) {x y : α} (hx : xs.head? = some x) (hy : y ∈ xs) :
    (place x).start ≤ (place y).start ∧ (place x).start < (place y).stop := by
  obtain ⟨xs, rfl⟩ := List.head?_eq_some_iff.1 hx
  have first := h.filled x List.mem_cons_self
  rcases List.mem_cons.1 hy with rfl | hy
  · exact ⟨Nat.le_refl _, first⟩
  · have apart := List.rel_of_pairwise_cons h.ordered hy
    have last := h.filled y (List.mem_cons_of_mem _ hy)
    omega

theorem stop_le_last (h : Tidy place xs) {x y : α} (hx : x ∈ xs) (hy : xs.getLast? = some y) :
    (place x).stop ≤ (place y).stop := by
  obtain ⟨xs, rfl⟩ := List.getLast?_eq_some_iff.1 hy
  rcases List.mem_append.1 hx with hx | hx
  · have apart := (List.pairwise_append.1 h.ordered).2.2 x hx y (by simp)
    have last := h.filled y (by simp)
    omega
  · exact Nat.le_of_eq (by rw [List.mem_singleton.1 hx])

end Tidy

/-- The lexemes of a text stand one after the other. -/
theorem lexemesFrom_tidy (place : Place) (cs : List Char) :
    Tidy Lexeme.span (lexemesFrom place cs) ∧
      ∀ x ∈ lexemesFrom place cs, place.offset ≤ x.span.start := by
  fun_induction lexemesFrom place cs with
  | case1 => exact ⟨⟨by simp, .nil⟩, by simp⟩
  | case2 place c cs taken next rest _ ih =>
      have grows : place.offset ≤ next.offset := by
        rw [Place.offset_after]
        omega
      exact ⟨ih.1, fun x hx => Nat.le_trans grows (ih.2 x hx)⟩
  | case3 place c cs taken next rest token _ ih =>
      have grows : place.offset < next.offset := by
        have := c.utf8Size_pos
        rw [Place.offset_after, String.utf8Len_cons]
        omega
      refine ⟨⟨List.forall_mem_cons.2 ⟨grows, ih.1.filled⟩, ih.1.ordered.cons fun x hx => ih.2 x hx⟩, ?_⟩
      exact List.forall_mem_cons.2 ⟨Nat.le_refl _, fun x hx => Nat.le_trans (Nat.le_of_lt grows) (ih.2 x hx)⟩

def Token.isDoc : Token → Bool
  | .doc _ => true
  | _ => false

theorem Token.isDoc_eq_false {t : Token} (h : ∀ line, t ≠ .doc line) : t.isDoc = false := by
  cases t with
  | doc line => exact absurd rfl (h line)
  | _ => rfl

/-- The lexemes that are no doc comments. -/
def Lexeme.solid (xs : List Lexeme) : List Lexeme := xs.filter fun x => !x.token.isDoc

/-- The items of a text are its lexemes that are no doc comments. -/
theorem Item.map_ofLexemesAfter {α : Type} (f : Token → Span → α) (xs : List Lexeme) :
    ∀ pending, (ofLexemesAfter pending xs).map (fun i => f i.token i.span) =
      (Lexeme.solid xs).map fun x => f x.token x.span := by
  induction xs with
  | nil => exact fun _ => rfl
  | cons x xs ih =>
      intro pending
      rw [ofLexemesAfter]
      split
      · next line h => simpa [Lexeme.solid, h, Token.isDoc] using ih (pending ++ [line])
      · next token h =>
          have solid : x.token.isDoc = false := Token.isDoc_eq_false h
          simpa [Lexeme.solid, solid] using ih []

/-- Each item is a lexeme that is no doc comment. -/
theorem Item.exists_lexeme {xs : List Lexeme} {i : Item} (h : i ∈ ofLexemes xs) :
    ∃ x ∈ xs, x.token.isDoc = false ∧ x.token = i.token ∧ x.span = i.span := by
  have mem := List.mem_map_of_mem (f := fun i => (i.token, i.span)) h
  rw [ofLexemes, map_ofLexemesAfter Prod.mk] at mem
  obtain ⟨x, hx, eq⟩ := List.mem_map.1 mem
  obtain ⟨hx, solid⟩ := List.mem_filter.1 hx
  exact ⟨x, hx, by simpa using solid, congrArg Prod.fst eq, congrArg Prod.snd eq⟩

theorem Item.ofLexemes_tidy (place : Place) (cs : List Char) :
    Tidy Item.span (ofLexemes (lexemesFrom place cs)) := by
  have tidy : Tidy Lexeme.span (Lexeme.solid (lexemesFrom place cs)) :=
    (lexemesFrom_tidy place cs).1.sublist List.filter_sublist
  have spans := map_ofLexemesAfter (fun _ place => place) (lexemesFrom place cs) []
  exact Tidy.of_map_eq spans.symm tidy

end Mim
