import Mathlib.Data.List.Nodup
import Mim.Proofs.Sources
import Mim.Proofs.Watch.Recovery

/-! # Each choice is recorded once

A tie-break is recorded at the token that it is about, and only the last diagnostic is looked
at to tell whether it has been recorded already. That is enough: the token that comes next is
never read a second time, and where a rule has just read something, nothing stands recorded at
the next token that could be recorded there again, but the end of an application, which is
then the last diagnostic.
-/

namespace Mim

open Grammar

namespace Reading

variable {s : Reading} {rule : TieBreak} {place : Span} {t : Token}

/-- What a rule chooses at a place has been recorded. -/
def Chose (s : Reading) (rule : TieBreak) (place : Span) : Prop :=
  ⟨.tieBreak rule, place⟩ ∈ s.recorded

/-- The places of the tokens that are left. -/
def places (s : Reading) : List Span := s.rest.map Item.span

/-- No choice has been recorded twice, and none behind the next token. That a type belongs to
    a literal is recorded only when the literal has been read. -/
structure Single (s : Reading) : Prop where
  places_nodup : s.places.Nodup
  once : (s.recorded.filter fun d => !d.isError).Nodup
  not_behind {rule : TieBreak} {place : Span} : s.Chose rule place → place ∉ s.places.tail
  literal {place : Span} : s.Chose .typeToLiteral place → place ∉ s.places
  lexical {place : Span} : ¬ s.Chose .integerBeforeMember place

/-- At the next token nothing has been recorded that may be recorded again, unless it is the
    last diagnostic. -/
structure Fresh (s : Reading) : Prop extends Single s where
  next {rule : TieBreak} {place : Span} : s.Chose rule place → place ∈ s.places →
    rule = .annexArgumentOverSubtags ∨
      rule = .declarationEndsApplication ∧ s.recorded.head? = some ⟨.tieBreak rule, place⟩

theorem recorded_advance (s : Reading) : s.advance.recorded = s.recorded := by
  unfold advance
  split <;> rfl

theorem places_advance (s : Reading) : s.advance.places = s.places.tail := by
  unfold advance places
  split <;> simp [*]

theorem places_note (s : Reading) (rule : TieBreak) (place : Span) :
    (s.note rule place).places = s.places := by
  rw [places, rest_note, places]

theorem chose_advance : s.advance.Chose rule place ↔ s.Chose rule place := by
  rw [Chose, recorded_advance, Chose]

theorem chose_note {rule' : TieBreak} {place' : Span} :
    (s.note rule place).Chose rule' place' ↔
      s.Chose rule' place' ∨ rule' = rule ∧ place' = place := by
  simp only [Chose, note]
  split
  · next last =>
      constructor
      · exact .inl
      · rintro (chose | ⟨rfl, rfl⟩)
        · exact chose
        · exact List.mem_of_mem_head? last
  · simp [record, or_comm]

theorem recorded_note_of_new (new : ¬ s.Chose rule place) :
    (s.note rule place).recorded = ⟨.tieBreak rule, place⟩ :: s.recorded := by
  simp only [note]
  split
  · next last => exact absurd (List.mem_of_mem_head? last) new
  · rfl

/-- The place of the next token comes first. -/
theorem places_of_token? (next : s.token? = some t) : s.places = s.span :: s.places.tail := by
  obtain ⟨i, rest, split, -⟩ := token?_eq_some.1 next
  simp [places, span, split]

namespace Single

theorem span_not_behind (h : s.Single) (next : s.token? = some t) :
    s.span ∈ s.places ∧ s.span ∉ s.places.tail := by
  have nodup := h.places_nodup
  rw [places_of_token? next] at nodup ⊢
  exact ⟨List.mem_cons_self, (List.nodup_cons.1 nodup).1⟩

/-- When a token has been read, nothing has been recorded yet at those that are left. -/
theorem clear (h : s.Single) (chose : s.advance.Chose rule place) : place ∉ s.advance.places := by
  rw [places_advance]
  exact h.not_behind (chose_advance.1 chose)

theorem advance (h : s.Single) : s.advance.Fresh where
  places_nodup := by
    rw [places_advance]
    exact h.places_nodup.sublist (List.tail_sublist _)
  once := by
    rw [recorded_advance]
    exact h.once
  not_behind chose behind := h.clear chose (List.mem_of_mem_tail behind)
  literal chose := h.clear chose
  lexical chose := h.lexical (chose_advance.1 chose)
  next chose ahead := absurd ahead (h.clear chose)

theorem note (h : s.Single) (new : ¬ s.Chose rule place) (behind : place ∉ s.places.tail)
    (literal : rule = .typeToLiteral → place ∉ s.places) (lexical : rule ≠ .integerBeforeMember) :
    (s.note rule place).Single where
  places_nodup := by
    rw [places_note]
    exact h.places_nodup
  once := by
    rw [recorded_note_of_new new, List.filter_cons_of_pos rfl]
    exact List.nodup_cons.2 ⟨fun again => new (List.mem_filter.1 again).1, h.once⟩
  not_behind chose := by
    rw [places_note]
    rcases chose_note.1 chose with chose | ⟨rfl, rfl⟩
    · exact h.not_behind chose
    · exact behind
  literal chose := by
    rw [places_note]
    rcases chose_note.1 chose with chose | ⟨rfl, rfl⟩
    · exact h.literal chose
    · exact literal rfl
  lexical chose := by
    rcases chose_note.1 chose with chose | ⟨rfl, rfl⟩
    · exact h.lexical chose
    · exact lexical rfl

theorem report (h : s.Single) (e : ParseError) : (s.report e).Single := by
  unfold Reading.report
  split
  · exact h
  · have told {rule : TieBreak} {place : Span}
        (chose : (s.record ⟨.grammar e.fault, e.span⟩).Chose rule place) : s.Chose rule place := by
      simpa [Chose, record] using chose
    exact ⟨h.places_nodup, h.once, fun chose => h.not_behind (told chose),
      fun chose => h.literal (told chose), fun chose => h.lexical (told chose)⟩

/-- Choices of several rules at the next token, none of which has been recorded there. -/
theorem notes (h : s.Single) (next : s.token? = some t) {rules : List TieBreak}
    (nodup : rules.Nodup) (ahead : ∀ rule ∈ rules, rule.isAhead)
    (new : ∀ rule ∈ rules, ¬ s.Chose rule s.span) :
    (rules.foldl (fun s' rule => s'.note rule s.span) s).Single := by
  suffices go : ∀ u : Reading, u.Single → u.places = s.places →
      (∀ rule ∈ rules, ¬ u.Chose rule s.span) →
      (rules.foldl (fun s' rule => s'.note rule s.span) u).Single from go s h rfl new
  clear new
  induction rules with
  | nil => exact fun u hu _ _ => hu
  | cons rule rules ih =>
      intro u hu same new
      have ⟨apart, nodup⟩ := List.nodup_cons.1 nodup
      have ⟨first, others⟩ := List.forall_mem_cons.1 ahead
      have ⟨free, rest⟩ := List.forall_mem_cons.1 new
      have behind : s.span ∉ u.places.tail := same ▸ (h.span_not_behind next).2
      have noted : (u.note rule s.span).Single := by
        apply hu.note free behind
        · rintro rfl
          cases first
        · rintro rfl
          cases first
      refine ih nodup others _ noted ((places_note ..).trans same) fun rule' mem chose => ?_
      rcases chose_note.1 chose with chose | ⟨rfl, -⟩
      · exact rest rule' mem chose
      · exact apart mem

end Single

namespace Fresh

/-- No choice of form has been recorded at the next token. -/
theorem not_chose (h : s.Fresh) (next : s.token? = some t) (ahead : rule.isAhead) :
    ¬ s.Chose rule s.span := by
  intro chose
  rcases h.next chose (h.span_not_behind next).1 with rfl | ⟨rfl, -⟩ <;> cases ahead

/-- The end of an application is recorded at most once, however often it is looked at. -/
theorem noted (h : s.Fresh) : s.noted.Fresh := by
  unfold Reading.noted
  split
  · next declares =>
      obtain ⟨t, next, -⟩ := (Option.any_eq_true ..).1 declares
      have ⟨ahead, behind⟩ := h.span_not_behind next
      by_cases last : s.recorded.head? = some ⟨.tieBreak .declarationEndsApplication, s.span⟩
      · rwa [note, if_pos last]
      · have new : ¬ s.Chose .declarationEndsApplication s.span := by
          intro chose
          rcases h.next chose ahead with ⟨⟨⟩⟩ | ⟨-, head⟩
          exact last head
        refine ⟨h.note new behind (by simp) (by simp), fun {rule place} chose left => ?_⟩
        rw [places_note] at left
        rw [recorded_note_of_new new]
        rcases chose_note.1 chose with chose | ⟨rfl, rfl⟩
        · rcases h.next chose left with rfl | ⟨rfl, head⟩
          · exact .inl rfl
          · rw [places_of_token? next] at left
            rcases List.mem_cons.1 left with rfl | left
            · exact absurd head last
            · exact absurd left (h.not_behind chose)
        · exact .inr ⟨rfl, rfl⟩
  · exact h

end Fresh

/-- What has been chosen once stays so where something broken is passed over. -/
theorem Single.survives (inWhere : Bool) : Survives inWhere Single where
  report e h := h.report e
  advance h _ _ := h.advance.toSingle

/-- The type of a literal, once it has been read with the colon behind it. -/
theorem Single.note_literal (h : s.Single) (next : s.token? = some t) :
    (s.advance.advance.note .typeToLiteral s.span).Fresh := by
  have fresh := h.advance.toSingle.advance
  have ⟨ahead, behind⟩ := h.span_not_behind next
  have new : ¬ s.advance.advance.Chose .typeToLiteral s.span := fun chose =>
    h.literal (chose_advance.1 (chose_advance.1 chose)) ahead
  have passed : s.span ∉ s.advance.advance.places := by
    rw [places_advance, places_advance]
    exact fun again => behind (List.mem_of_mem_tail again)
  refine ⟨fresh.note new (fun again => passed (List.mem_of_mem_tail again)) (fun _ => passed)
    (by simp), fun chose left => ?_⟩
  rw [places_note] at left
  rcases chose_note.1 chose with chose | ⟨-, rfl⟩
  · exact absurd left (h.advance.toSingle.clear chose)
  · exact absurd left passed

/-- The parenthesis behind an annex, as soon as the annex has been read. -/
theorem Single.note_annex (h : s.Single) (next : s.advance.token? = some t) :
    (s.advance.note .annexArgumentOverSubtags s.advance.span).Fresh := by
  have ⟨ahead, behind⟩ := h.advance.span_not_behind next
  have new : ¬ s.advance.Chose .annexArgumentOverSubtags s.advance.span := fun chose =>
    h.clear chose ahead
  refine ⟨h.advance.note new behind (by simp) (by simp), fun chose left => ?_⟩
  rw [places_note] at left
  rcases chose_note.1 chose with chose | ⟨rfl, -⟩
  · exact absurd left (h.clear chose)
  · exact .inl rfl

end Reading

open Reading (Single Fresh)

/-- The body of a `where` is read up to its end, and that is a token as any other. -/
theorem Grammar.whereBody_single {g : Nested} (nests : ∀ {σ : Simulation} {n : Nat}, σ.Nests n g g)
    (declaration : Keeps Single Single Fresh (declaration g)) :
    Keeps Single Single Fresh (whereBody g) := by
  have closing (parts : List (Option Decl)) : Keeps Single Single Fresh (do
      expect (.keyword .end_)
      return parts.filterMap id) := by
    have read : Keeps Single Single Fresh (expect (.keyword .end_)) := by
      refine Keeps.accept (Keeps.pure ?_) (Keeps.unexpected id)
      rintro _ ⟨s, single, -, rfl⟩
      exact single.advance
    exact read.last
  have parts : Keeps Single Single Single (many (wherePart? g)) := by
    have forward := (goesForward nests).declaration
    refine ⟨fun {s s' parts} single run => ?_, fun {s s' e} _ run => ?_⟩
    · have repeats := (many_ok (wherePart?_advances nests)).1 run
      exact (repeats_wherePart? (Single.survives true) (declaration.weaken id Fresh.toSingle) forward
        repeats single).1
    · obtain ⟨parts, s₁, done, -⟩ := (wherePart?_loop nests).whole s
      rw [done] at run
      cases run
  exact parts.bind closing

/-- Choices are watched. -/
def Watch.single : Watch where
  held := Single
  fresh := Fresh
  held_of_fresh h := h.toSingle
  advance h _ _ := h.advance
  noted h := h.noted
  ahead rules h next nodup ahead := by
    obtain ⟨t, next⟩ := Option.isSome_iff_exists.1 next
    exact h.notes next nodup ahead fun rule mem => h.not_chose next (ahead rule mem)
  literal h next _ := h.note_literal next
  annex h _ next := h.note_annex next
  whereBody nests declaration := by
    refine (whereBody_single nests declaration).weaken ?_ id
    rintro _ ⟨s, single, -, rfl⟩
    exact single.advance.toSingle

namespace Grammar

variable {n : Nat} {s : Reading}

theorem dependency?_keeps : Keeps Single Single Single dependency? := by
  have forward := (goesForward (g := Nested.upTo 0) nests_self).dependency
  have step := (Single.survives false).recovering
    (dependency_reads (w := .single).weaken id Fresh.toSingle) forward
  refine Keeps.see (fun _ => dependencyAhead_run) fun ahead => ?_
  cases ahead with
  | false => exact Keeps.pure And.left
  | true =>
      refine (step.weaken (fun {s} hs => ⟨hs.1, ?_⟩) id).map
      obtain ⟨t, next, -⟩ := (Option.any_eq_true ..).1 hs.2
      exact ⟨t, next, fun inWhere => by cases inWhere⟩

theorem declaration?_keeps : Keeps Single Single Single (declaration? (Nested.upTo n)) := by
  have forward : Forward 1 (fileDeclaration (Nested.upTo n)) :=
    .of_inStep (fileDeclaration_inStep nests_self)
  have step := (Single.survives false).declarationOrError
    ((fileDeclaration_reads (Watch.single.nests_upTo n)).weaken id Fresh.toSingle) forward
  refine Keeps.peek fun next => ?_
  cases next with
  | none => exact Keeps.pure And.left
  | some t =>
      refine (step.weaken (fun hs => ⟨hs.1, t, hs.2, ?_⟩) id).map
      exact fun inWhere => by cases inWhere

/-- No choice is recorded twice while a file is read. -/
theorem file_keeps : Keeps Single Single Single (file (Nested.upTo n)) := by
  have dependencies : Keeps Single Single Single dependencies :=
    (Keeps.many dependency?_keeps).last
  have declarations : Keeps Single Single Single (declarations (Nested.upTo n)) :=
    Keeps.many declaration?_keeps
  exact Keeps.last (Keeps.located (dependencies.bind fun _ => declarations.last))

end Grammar

/-- Tidy places are all different. -/
theorem Tidy.nodup {α : Type} {place : α → Span} {xs : List α} (h : Tidy place xs) :
    (xs.map place).Nodup := by
  apply List.pairwise_map.2
  apply h.ordered.imp_of_mem
  intro x y hx _ apart same
  have filled := h.filled x hx
  rw [same] at apart filled
  omega

/-- A lexeme is worth a note only if it gave up its point. -/
theorem Lexeme.notes_eq (x : Lexeme) : x.diagnostics.filter (fun d => !d.isError) =
    if x.beforeMember then [⟨.tieBreak .integerBeforeMember, x.span⟩] else [] := by
  unfold Lexeme.diagnostics
  split <;> split <;> rfl

namespace Source

/-- Before anything is read, nothing has been recorded. -/
theorem single_reading (text : String) : (reading text).Single where
  places_nodup := (Item.ofLexemes_tidy Place.first text.toList).nodup
  once := .nil
  not_behind chose := absurd chose List.not_mem_nil
  literal chose := absurd chose List.not_mem_nil
  lexical := List.not_mem_nil

/-- What the tokens of a text have to report is no choice of the grammar, and each of them
    reports it once. -/
theorem lexical_notes (text : String) :
    ((lexical text).filter fun d => !d.isError).Nodup ∧
      ∀ d ∈ (lexical text).filter (fun d => !d.isError),
        d.cause = .tieBreak .integerBeforeMember := by
  rw [lexical, List.filter_flatMap]
  simp only [Lexeme.notes_eq]
  have tidy : Tidy Lexeme.span (lexemes text) := (lexemesFrom_tidy Place.first text.toList).1
  constructor
  · refine List.nodup_flatMap.2 ⟨fun x _ => by split <;> simp, ?_⟩
    apply (List.pairwise_map.1 tidy.nodup).imp
    intro x y apart
    simp only [Function.onFun]
    split <;> split <;> simp [apart.symm]
  · intro d hd
    obtain ⟨x, -, hd⟩ := List.mem_flatMap.1 hd
    split at hd
    · rw [List.mem_singleton.1 hd]
    · cases hd

/-- No two notes on a text are of the same rule at the same place. -/
theorem notes_are_single (name text : String) :
    ((read name text).notes.map fun d => (d.cause, d.span)).Nodup := by
  have recorded : (reading text).file.2.Single := by
    obtain ⟨f, s', run, -⟩ := file_read (g := (reading text).nested) nests_self (reading text)
    rw [Reading.file_eq run]
    exact file_keeps.ok (single_reading text) run
  have ⟨once, told⟩ := lexical_notes text
  have notes : (read name text).notes.Perm ((lexical text).filter (fun d => !d.isError) ++
      (reading text).file.2.recorded.filter fun d => !d.isError) := by
    apply ((Diagnostic.sort_perm _).filter _).trans
    rw [List.filter_append]
    apply List.Perm.append_left
    exact ((Diagnostic.sort_perm _).trans (List.reverse_perm _)).filter _
  have apart : List.Disjoint ((lexical text).filter fun d => !d.isError)
      ((reading text).file.2.recorded.filter fun d => !d.isError) := by
    intro d early late
    have lexical := told d early
    obtain ⟨cause, place⟩ := d
    obtain rfl : cause = _ := lexical
    exact recorded.lexical (List.mem_filter.1 late).1
  have nodup : (read name text).notes.Nodup := notes.nodup_iff.2 (once.append recorded.once apart)
  exact nodup.map fun d d' same => by
    cases d
    cases d'
    simpa using same

end Source

end Mim
