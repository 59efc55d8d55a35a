import Mim.Proofs.Lexing
import Mim.Proofs.Sources

/-! # Where something is reported

The grammar reports nothing at broken text: what it records stands at a token that is
whole, or at the end of the input. So each piece of broken text has one error at its place,
the one that the text itself gives.
-/

namespace Mim

open Grammar
open Simulation (Anywhere)

/-- The place of an item that is no broken text. -/
def Item.Marks (items : List Item) (place : Span) : Prop :=
  ∃ i ∈ items, i.span = place ∧ ∀ reason, i.token ≠ .error reason

namespace Diagnostic

def isLexical (d : Diagnostic) : Bool :=
  match d.cause with
  | .lexical _ => true
  | _ => false

/-- What the grammar may report of some items: something at a token that is whole, or that
    the input ends too early. -/
inductive Concerns (items : List Item) (d : Diagnostic) : Prop where
  | token : d.isLexical = false → Item.Marks items d.span → Concerns items d
  | stop {expected : String} :
    d = ⟨.grammar (.unexpectedEnd expected), Span.point (Item.endAfter 0 items)⟩ → Concerns items d

theorem Concerns.isLexical {items : List Item} {d : Diagnostic} (h : d.Concerns items) :
    d.isLexical = false := by
  cases h with
  | token whole => exact whole
  | stop eq => rw [eq]; rfl

end Diagnostic

/-- A reading that has gone on from the start of some items, and what it may have recorded. -/
def Simulation.concerning (items : List Item) : Simulation where
  move := .id
  rel s u := u = s ∧ (∃ cs, (Reading.start items).After cs s) ∧ ∀ d ∈ s.recorded, d.Concerns items
  marks := Item.Marks items
  bare := by rintro s _ ⟨rfl, -⟩; rfl
  span_eq := by rintro s _ ⟨rfl, -⟩; rfl
  spanFrom_eq := by rintro s _ ⟨rfl, -⟩ place; rfl
  marks_span := by
    rintro s _ t ⟨rfl, ⟨cs, after⟩, -⟩ ht whole
    obtain ⟨i, rest, hs, rfl⟩ := Reading.token?_eq_some.1 ht
    have mem : i ∈ items := by
      rw [show items = _ from after.rest, hs]
      simp
    exact ⟨i, mem, by rw [Reading.span, hs], whole⟩
  rel_advance := by
    rintro _ s ⟨rfl, ⟨cs, after⟩, known⟩
    cases hs : s.rest with
    | nil => exact ⟨rfl, ⟨cs, by rwa [Reading.advance, hs]⟩, by rwa [Reading.advance, hs]⟩
    | cons i rest =>
        refine ⟨rfl, ⟨cs ++ [i], after.trans (.advance hs)⟩, ?_⟩
        rwa [Reading.advance_eq hs]
  rel_note := by
    rintro s _ ⟨rfl, ⟨cs, after⟩, known⟩ rule place marked
    refine ⟨rfl, ⟨cs ++ [], after.trans (.note rule place)⟩, ?_⟩
    unfold Reading.note
    dsimp only
    split
    · exact known
    · exact List.forall_mem_cons.2 ⟨.token rfl marked, known⟩
  rel_report := by
    rintro _ s ⟨rfl, ⟨cs, after⟩, known⟩ e blames
    refine ⟨rfl, ⟨cs ++ [], after.trans (.report e)⟩, ?_⟩
    unfold Reading.report
    split
    · exact known
    · next told =>
        refine List.forall_mem_cons.2 ⟨?_, known⟩
        cases blames with
        | broken silent => exact absurd silent told
        | token _ marked => exact .token rfl marked
        | @stop expected stop eq =>
            have rest := Reading.token?_eq_none.1 stop
            obtain rfl : items = cs := by simpa [Reading.start, rest] using after.rest
            refine @Diagnostic.Concerns.stop _ _ expected ?_
            rw [eq, Reading.span, rest, after.lastEnd]
            rfl

/-- All that is recorded when items are read as a file. -/
theorem Reading.file_concerns (items : List Item) :
    ∀ d ∈ (start items).file.2.recorded, d.Concerns items := by
  obtain ⟨f, s', run, -⟩ := file_read (g := (start items).nested) nests_self (start items)
  have inStep : (Simulation.concerning items).InStep Anywhere 0 (items.length + 1)
    (Grammar.file (start items).nested) (Grammar.file (start items).nested) := file_inStep nests_self
  have agree := inStep (start items) (start items) ⟨rfl, ⟨[], .refl _⟩, nofun⟩ trivial
    (Nat.lt_succ_self _)
  rw [run] at agree
  rw [file_eq run]
  exact agree.2.1.2.2

/-- There is one at each place. -/
theorem Tidy.filter_place {α : Type} {place : α → Span} {xs : List α} (h : Tidy place xs) {x : α}
    (hx : x ∈ xs) : xs.filter (fun y => place y = place x) = [x] := by
  obtain ⟨front, back, rfl⟩ := List.append_of_mem hx
  obtain ⟨-, behind, before⟩ := List.pairwise_append.1 h.ordered
  have filled := h.filled x hx
  have left : front.filter (fun y => place y = place x) = [] := by
    refine List.filter_eq_nil_iff.2 fun y hy same => ?_
    have apart := before y hy x List.mem_cons_self
    rw [of_decide_eq_true same] at apart
    omega
  have right : back.filter (fun y => place y = place x) = [] := by
    refine List.filter_eq_nil_iff.2 fun y hy same => ?_
    have apart := List.rel_of_pairwise_cons behind hy
    rw [of_decide_eq_true same] at apart
    omega
  rw [List.filter_append, left, List.filter_cons_of_pos (by simp), right]
  rfl

namespace Lexeme

variable {x : Lexeme} {reason : LexError}

theorem errors_of_error (h : x.token = .error reason) : x.errors = [⟨.lexical reason, x.span⟩] := by
  rw [errors, h]

theorem mem_errors {d : Diagnostic} (h : d ∈ x.errors) : d.span = x.span ∧ d.isLexical := by
  unfold errors at h
  split at h
  · rw [List.mem_singleton.1 h]
    exact ⟨rfl, rfl⟩
  · cases h

theorem length_errors (xs : List Lexeme) :
    (xs.flatMap errors).length = xs.countP fun x => x.token.isBroken := by
  induction xs with
  | nil => rfl
  | cons x xs ih =>
      have one : x.errors.length = if x.token.isBroken then 1 else 0 := by
        unfold errors
        cases x.token <;> rfl
      rw [List.flatMap_cons, List.length_append, ih, one, List.countP_cons, Nat.add_comm]

/-- The errors of lexemes that stand at a place are those of the lexeme that stands there. -/
theorem filter_errors {xs : List Lexeme} (tidy : Tidy Lexeme.span xs) (hx : x ∈ xs) :
    (xs.flatMap errors).filter (fun d => d.span = x.span) = x.errors := by
  have each : ∀ y : Lexeme, y.errors.filter (fun d => d.span = x.span) =
      if y.span = x.span then y.errors else [] := by
    intro y
    split
    · next same =>
        refine List.filter_eq_self.2 fun d hd => ?_
        simp [(mem_errors hd).1, same]
    · next apart =>
        refine List.filter_eq_nil_iff.2 fun d hd => ?_
        simp [(mem_errors hd).1, apart]
  have there := congrArg (List.flatMap errors) (tidy.filter_place hx)
  rw [List.filter_flatMap, List.flatMap_congr fun y _ => each y]
  rw [List.flatMap_singleton] at there
  rw [← there]
  clear there tidy hx
  induction xs with
  | nil => rfl
  | cons y xs ih =>
      rw [List.flatMap_cons, ih, List.filter_cons]
      split <;> simp_all

end Lexeme

namespace Source

variable {text : String}

/-- The errors of a text that satisfy `p`, where no error of the grammar does. -/
theorem filter_errors_ofText {p : Diagnostic → Bool}
    (h : ∀ d, d.Concerns (Item.ofLexemes (lexemes text)) → p d = false) :
    (ofText text).errors.filter p =
      Diagnostic.sort (((lexemes text).flatMap Lexeme.errors).filter p) := by
  have none : ((reading text).file.2.recorded.filter Diagnostic.isError).reverse.filter p = [] := by
    refine List.filter_eq_nil_iff.2 fun d hd => ?_
    have recorded := (List.mem_filter.1 (List.mem_reverse.1 hd)).1
    rw [h d (Reading.file_concerns _ d recorded)]
    exact Bool.false_ne_true
  rw [errors_ofText, Diagnostic.filter_sort, List.filter_append, Diagnostic.filter_sort, none]
  change Diagnostic.sort (_ ++ []) = _
  rw [List.append_nil]

end Source

/-- No error of the grammar stands where broken text does. -/
theorem Diagnostic.Concerns.span_ne {text : String} {d : Diagnostic} {x : Lexeme} {reason : LexError}
    (h : d.Concerns (Item.ofLexemes (lexemes text))) (hx : x ∈ lexemes text)
    (broken : x.token = .error reason) : d.span ≠ x.span := by
  have tidy := (lexemesFrom_tidy Place.first text.toList).1
  intro same
  cases h with
  | token _ marks =>
      obtain ⟨i, hi, place, whole⟩ := marks
      obtain ⟨y, hy, -, token, span⟩ := Item.exists_lexeme hi
      have mem : y ∈ (lexemes text).filter (fun z => z.span = x.span) :=
        List.mem_filter.2 ⟨hy, by simp [span, place, same]⟩
      rw [lexemes, tidy.filter_place hx, List.mem_singleton] at mem
      exact whole reason (by rw [← token, mem, broken])
  | stop eq =>
      have filled := tidy.filled x hx
      rw [← same, eq] at filled
      exact Nat.lt_irrefl _ filled

/-- Each piece of broken text has exactly one error at its place, which says what is broken
    there, and there are as many such errors as there are pieces. -/
theorem broken_text_is_reported_once (text : String) :
    (∀ x ∈ lexemes text, ∀ reason, x.token = .error reason →
      (Source.ofText text).errors.filter (fun d => d.span = x.span) =
        [⟨.lexical reason, x.span⟩]) ∧
      (Source.ofText text).errors.countP Diagnostic.isLexical =
        (lexemes text).countP fun x => x.token.isBroken := by
  have tidy := (lexemesFrom_tidy Place.first text.toList).1
  constructor
  · intro x hx reason broken
    rw [Source.filter_errors_ofText fun d hd => by simpa using hd.span_ne hx broken]
    rw [lexemes, Lexeme.filter_errors tidy hx, Lexeme.errors_of_error broken]
    rfl
  · rw [List.countP_eq_length_filter, Source.filter_errors_ofText fun d hd => hd.isLexical,
      Diagnostic.length_sort, List.filter_eq_self.2]
    · exact Lexeme.length_errors _
    · intro d hd
      obtain ⟨x, -, hx⟩ := List.mem_flatMap.1 hd
      exact (Lexeme.mem_errors hx).2

/-- A numeral out of range that gives up its point, and a character that starts no token. -/
theorem broken_text_is_reported_once_numeral :
    let text := "let x = 9999999999999999999999999999999999999999.a ! b"
    let reason := LexError.invalidNumber "9999999999999999999999999999999999999999"
    (∃ x ∈ lexemes text, x.beforeMember = true ∧ x.token = .error reason ∧
      (Source.ofText text).errors.filter (fun d => d.span = x.span) = [⟨.lexical reason, x.span⟩]) ∧
      (Source.ofText text).errors.countP Diagnostic.isLexical =
        (lexemes text).countP fun x => x.token.isBroken := by
  intro text reason
  obtain ⟨x, hx, member, broken⟩ : ∃ x ∈ lexemes text, x.beforeMember = true ∧
      x.token = .error reason := by decide +kernel
  obtain ⟨once, count⟩ := broken_text_is_reported_once text
  exact ⟨⟨x, hx, member, broken, once x hx _ broken⟩, count⟩

end Mim
