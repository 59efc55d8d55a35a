import Mim.Proofs.Choices.Files

/-! # The rules that formatting keeps

A formatted text tells of the rules that the text told of, in the same order. Only two are
gone: no declaration ends an application, since each has a semicolon in front of it, and no
numeral gives up a point, since a blank stands behind it.
-/

namespace Mim

open Grammar Token Layout
open Reading (Told)
open TieBreak (InPlace lasting lasting_of_inPlace)

variable {text : String}

namespace Reading

theorem mem_rules {s : Reading} {rule : TieBreak} : rule ∈ s.rules ↔ ∃ place, s.Chose rule place := by
  rw [rules, List.mem_filterMap]
  constructor
  · rintro ⟨⟨cause, place⟩, hd, told⟩
    have recorded := List.mem_reverse.1 hd
    cases cause with
    | tieBreak rule' =>
        cases told
        exact ⟨place, recorded⟩
    | _ => cases told
  · rintro ⟨place, chose⟩
    exact ⟨_, List.mem_reverse.2 chose, rfl⟩

/-- What has been told of stands in the order of the text. -/
theorem Told.sorted {items : List Item} {l : List TieBreak} {s : Reading} (h : Told items l s) :
    Diagnostic.Sorted s.diagnostics := List.pairwise_reverse.2 h.ordered.recorded

end Reading

namespace Source

/-- The rules that a text tells of, in their order. -/
def rules (s : Source) : List TieBreak := s.diagnostics.filterMap Diagnostic.rule?

/-- Some of the rules that a text tells of, none of which is told of a token, are those that
    are told of while it is read. -/
theorem filter_rules {p : TieBreak → Bool} (lexical : ∀ d ∈ lexical text, d.rule?.any p = false)
    (sorted : Diagnostic.Sorted (reading text).file.2.diagnostics) :
    (ofText text).rules.filter p = (reading text).file.2.rules.filter p := by
  have front (ds : List Diagnostic) : (ds.filterMap Diagnostic.rule?).filter p =
      (ds.filter fun d => d.rule?.any p).filterMap Diagnostic.rule? := by
    rw [List.filter_filterMap, List.filterMap_filter]
    refine congrArg (List.filterMap · ds) (funext fun d => ?_)
    cases d.rule? with
    | none => rfl
    | some rule => cases h : p rule <;> simp [h]
  change ((Diagnostic.sort (Source.lexical text ++
    Diagnostic.sort (reading text).file.2.diagnostics)).filterMap Diagnostic.rule?).filter p = _
  have none : (Source.lexical text).filter (fun d => d.rule?.any p) = [] :=
    List.filter_eq_nil_iff.2 fun d hd => by simp [lexical d hd]
  rw [sorted.sort_eq, front, Diagnostic.filter_sort, List.filter_append, none, List.nil_append,
    Diagnostic.Sorted.sort_eq (sorted.filter _), ← front]
  rfl

/-- A token tells of nothing but the point that it gave up. -/
theorem rule_lexical {d : Diagnostic} (h : d ∈ lexical text) :
    ∀ rule ∈ d.rule?, rule = .integerBeforeMember := by
  intro rule told
  obtain ⟨cause, place⟩ := d
  cases cause with
  | tieBreak rule' =>
      cases told
      have cause := (lexical_notes text).2 _ (List.mem_filter.2 ⟨h, rfl⟩)
      cases cause
      rfl
  | _ => cases told

/-- No token of a formatted text gives up a point. -/
theorem lexical_formatted (h : (ofText text).hasErrors = false) :
    lexical (ofText text).formatted = [] := by
  refine List.flatMap_eq_nil_iff.2 fun x hx => ?_
  have clean := clean_formatted h x hx
  have whole : x.beforeMember = false := by
    rw [lexemes, formatted, File.text, String.toList_ofList] at hx
    exact Layout.beforeMember_lexemes (File.fits (ofText text).file).isChain (reads_layout h) hx
  rw [Lexeme.diagnostics, whole]
  cases token : x.token with
  | error reason => exact absurd token (clean reason)
  | _ => rfl

/-- The choices in the tree of a formatted text are those in the tree of the text. -/
theorem choices_formatted (h : (ofText text).hasErrors = false)
    (bars : ∀ t, [.keyword .with_, .symbol .pipe, t] <:+: undoc (tokensOf text) →
      t ≠ .symbol .leftBrace ∧ t.startsDeclaration = false) :
    (ofText (ofText text).formatted).file.choices = (ofText text).file.choices := by
  have bare (text : String) : (reading text).bare.file.1.choices = (ofText text).file.choices := by
    rw [show (reading text).bare.file = _ from (reading text).file_redocumented _ rfl,
      File.choices_respan]
    rfl
  have same := congrArg File.choices (bare_respelled h bars).2
  rwa [File.choices_respan, File.choices_respan, bare, bare] at same

end Source

/-- A formatted text tells of the same rules as the text, in the same order, but of no
    declaration that ends an application and of no numeral that gave up its point: unless a bar
    is left out between `with` and a brace or a declaration. -/
theorem formatting_keeps_rules (text : String) (h : (Source.ofText text).hasErrors = false)
    (bars : ∀ t, [.keyword .with_, .symbol .pipe, t] <:+: undoc (tokensOf text) →
      t ≠ .symbol .leftBrace ∧ t.startsDeclaration = false) :
    (Source.ofText (Source.ofText text).formatted).rules = (Source.ofText text).rules.filter fun rule =>
      rule ≠ .declarationEndsApplication ∧ rule ≠ .integerBeforeMember := by
  let s := Source.reading text
  let u := Source.reading (Source.ofText text).formatted
  have told := Source.told h
  have told' := Source.told (formatted_without_errors text h bars)
  have choices := Source.choices_formatted h bars
  have placed : InPlace (Source.ofText text).file.choices := by
    refine told.placed fun t infix_ => (bars t ?_).2
    rwa [show (Source.reading text).rest.map Item.token = _ from items_tokens _] at infix_
  have calm : Token.Calm (u.rest.map Item.token) := by
    rw [show u.rest.map Item.token = _ from items_tokens _, tokensOf_formatted h]
    exact File.calm _ placed
  have inPlace : InPlace u.file.2.rules := fun mem => by
    obtain ⟨place, chose⟩ := Reading.mem_rules.1 mem
    exact told'.calm calm place chose
  calc (Source.ofText (Source.ofText text).formatted).rules
      = u.file.2.rules := by
        have all := Source.filter_rules (p := fun _ => true) 
          (by simp [Source.lexical_formatted h]) told'.sorted
        rwa [List.filter_true, List.filter_true] at all
    _ = lasting s.file.2.rules := by
        rw [← lasting_of_inPlace inPlace, told'.told, told.told, choices]
    _ = s.file.2.rules.filter fun rule =>
          rule ≠ .declarationEndsApplication ∧ rule ≠ .integerBeforeMember := by
        refine List.filter_congr fun rule mem => ?_
        obtain ⟨place, chose⟩ := Reading.mem_rules.1 mem
        have grammar : rule ≠ .integerBeforeMember := fun eq => told.single.lexical (eq ▸ chose)
        simp [grammar]
    _ = _ := by
        refine (Source.filter_rules (fun d hd => ?_) told.sorted).symm
        cases hr : d.rule? with
        | none => rfl
        | some rule => simp [Source.rule_lexical hd rule hr]

/-- What stays in order, and what is gone. -/
theorem formatting_keeps_rules_bar :
    let text := "lam f a: %m.T (b) = match g 1.bot with | c => d let x = h"
    (Source.ofText text).hasErrors = false ∧
      (Source.ofText text).rules = [.typeToEnclosingForm, .annexArgumentOverSubtags,
        .integerBeforeMember, .patternOverBattern, .declarationEndsApplication,
        .patternOverBattern] ∧
      (Source.ofText (Source.ofText text).formatted).rules = [.typeToEnclosingForm,
        .annexArgumentOverSubtags, .patternOverBattern, .patternOverBattern] := by
  intro text
  have clean : (Source.ofText text).hasErrors = false := by decide +kernel
  have rules : (Source.ofText text).rules = [.typeToEnclosingForm, .annexArgumentOverSubtags,
      .integerBeforeMember, .patternOverBattern, .declarationEndsApplication,
      .patternOverBattern] := by decide +kernel
  have table : ∀ t ∈ undoc (tokensOf text),
      [.keyword .with_, .symbol .pipe, t] <:+: undoc (tokensOf text) →
      t ≠ .symbol .leftBrace ∧ t.startsDeclaration = false := by decide +kernel
  refine ⟨clean, rules, ?_⟩
  rw [formatting_keeps_rules text clean fun t h => table t (h.subset (by simp)) h, rules]
  decide

/-- Behind a bar that is left out and a doc comment, a declaration is told of as the end of an
    application. -/
theorem documented_arm_ends_application :
    let text := "let y = match x with |\n/// d\nlet z = 1; z => c"
    (Source.ofText text).hasErrors = false ∧
      (∀ t, [.keyword .with_, .symbol .pipe, t] <:+: tokensOf text →
        t ≠ .symbol .leftBrace ∧ t.startsDeclaration = false) ∧
      (Source.ofText (Source.ofText text).formatted).rules ≠
        (Source.ofText text).rules.filter fun rule =>
          rule ≠ .declarationEndsApplication ∧ rule ≠ .integerBeforeMember := by
  intro text
  have table : ∀ t ∈ tokensOf text, [.keyword .with_, .symbol .pipe, t] <:+: tokensOf text →
      t ≠ .symbol .leftBrace ∧ t.startsDeclaration = false := by decide +kernel
  exact ⟨by decide +kernel, fun t h => table t (h.subset (by simp)) h, by decide +kernel⟩

end Mim
