import Mim.Proofs.Choices.Told
import Mim.Proofs.WellFormed

/-! # A clean run tells of the choices in a binder

Every rule of the grammar tells of the choices in the tree that it gives, in their order, behind
what has been told of before. Names tell of none.
-/

namespace Mim

open Grammar
open Reading (Told ToldFresh ToldEnd)
open TieBreak (argument misplaced InPlace)
open Token (startsDomain)

variable {items : List Item} {l : List TieBreak} {s s' : Reading} {least : Prec}

namespace TieBreak

theorem argument_eq_nil {annex : Bool} {t : Option Token} (h : t ≠ some (.symbol .leftParen)) :
    argument annex t = [] := by
  simp [argument, h]

theorem misplaced_of_startsDomain {next : Option Token} (h : next.any startsDomain) :
    misplaced next = [] := by
  cases next with
  | none => cases h
  | some t =>
      have apart : t.startsDeclaration = false := by
        simpa using (Bool.and_eq_true_iff.1 (show t.startsDomain = true from h)).2
      simp [misplaced, apart]

end TieBreak

open TieBreak (argument_eq_nil misplaced_of_startsDomain)

theorem Reading.token?_advance (s : Reading) : s.advance.token? = s.tokenAt? 1 := by
  unfold Reading.advance Reading.token? Reading.tokenAt?
  cases h : s.rest with
  | nil => simp [h]
  | cons i rest => simp [List.head?_eq_getElem?]

/-- Where an operator as weak as an application may follow, none begins here with a parenthesis. -/
theorem Reading.Below.token?_ne (h : s.Below least) (weak : least ≤ .application) :
    s.token? ≠ some (.symbol .leftParen) := by
  intro next
  have strong : Prec.application < least := h .application (by
    rw [Reading.operator?, next]
    rfl)
  exact absurd strong (Int.not_lt.2 weak)

namespace Binder

variable {b : Binder}

theorem choices_of_isTuple (h : b.isTuple) : b.choices least = b.choices .bottom := by
  cases b <;> first | rfl | cases h

theorem asPattern_of_isTuple (h : b.isTuple) : b.asPattern = [] := by
  cases b <;> first | rfl | cases h

theorem asType_of_isTuple (h : b.isTuple) : b.asType = [] := by
  cases b <;> first | rfl | cases h

theorem atEnd_of_isTuple (h : b.isTuple) (next : Option Token) : b.atEnd next = [] := by
  cases b <;> first | rfl | cases h

theorem asElement_of_isTuple (h : b.isTuple) (bracket : Bracket) : b.asElement bracket = [] := by
  cases b <;> cases bracket <;> first | rfl | cases h

/-- Only a colon or a parenthesis behind a domain makes a difference to it. -/
theorem atEnd_eq_nil {t : Option Token} (colon : t ≠ some (.symbol .colon))
    (paren : t ≠ some (.symbol .leftParen)) (b : Binder) : b.atEnd t = [] := by
  cases b with
  | name => exact if_neg colon
  | type => exact argument_eq_nil paren
  | typed | group | tuple => rfl

end Binder

/-- What is nested tells of the choices in it. -/
structure Nested.Telling (items : List Item) (g : Nested) : Prop where
  spelled : g.Spelled .exact
  groups : g.Groups
  expr (least : Prec) (l : List TieBreak) : Tells (Told items l) (g.expr least) fun e s =>
    ToldEnd items (l ++ e.choices least ++ argument e.endsInAnnex s.token?) s
  tuple (bracket : Bracket) (l : List TieBreak) :
    Tells (fun s => Told items l s ∧ s.token? = some bracket.open_) (g.tuple bracket)
      fun b s => ToldEnd items (l ++ b.choices .bottom) s
  isTuple {bracket : Bracket} {s s' : Reading} {b : Binder} :
    g.tuple bracket s = .ok b s' → b.isTuple
  /-- A name in front of a colon is an expression by itself. -/
  name {least : Prec} {s s' : Reading} {e : Expr} {name : String} : g.expr least s = .ok e s' →
    s.token? = some (.ident name) → s.tokenAt? 1 = some (.symbol .colon) → e.form = .ident name

namespace Grammar

variable {g : Nested} {t : Option Token}

namespace Tells

variable {α : Type} {p : Parser α} {Q : α → Reading → Prop}

theorem fresh (h : Tells (Told items l) p Q) : Tells (ToldFresh items l) p Q :=
  h.pre fun _ hs => hs.toTold

theorem behind (h : Tells (Told items l) p Q) : Tells (ToldEnd items l) p Q :=
  h.pre fun _ hs => hs.toTold

/-- A loop tells of what is chosen each time. -/
theorem each {step : Parser (Option α)} {K : List TieBreak → Reading → Prop} {c : α → List TieBreak}
    (h : ∀ l, Tells (K l) step fun r => K (l ++ r.elim [] c)) :
    Tells (K l) (Grammar.many step) fun as => K (l ++ as.flatMap c) := by
  refine Tells.pre (many (I := fun as => K (l ++ as.flatMap c)) fun as => (h _).post fun r s hs => ?_)
    fun s hs => by simpa using hs
  cases r with
  | none => simpa using hs
  | some a => simpa using hs

/-- A list tells of what is chosen in each element. -/
theorem list {close : Token} {element : Parser α} {c : α → List TieBreak}
    (h : ∀ l, Tells (ToldFresh items l) element fun a => ToldFresh items (l ++ c a)) :
    Tells (ToldFresh items l) (Grammar.commaList close element) fun as =>
      ToldFresh items (l ++ as.flatMap c) := by
  refine Tells.pre (commaList (I := fun as => ToldFresh items (l ++ as.flatMap c)) (fun as => ?_)
    fun _ _ hs _ => hs.advance) fun s hs => by simpa using hs
  exact (h _).post fun a s hs => by simpa using hs

end Tells

section Names

/-- Whether a colon follows the token ahead. -/
theorem colonFollows_tells {α : Type} {P : Reading → Prop} {Q : α → Reading → Prop}
    {f : Bool → Parser α}
    (yes : Tells (fun s => P s ∧ s.tokenAt? 1 = some (.symbol .colon)) (f true) Q)
    (no : Tells (fun s => P s ∧ s.tokenAt? 1 ≠ some (.symbol .colon)) (f false) Q) :
    Tells P (colonFollows >>= f) Q := by
  refine Tells.see (v := fun s => s.tokenAt? 1 == some (.symbol .colon)) (fun _ => rfl) fun colon => ?_
  cases colon with
  | true => exact yes.pre fun s hs => ⟨hs.1, beq_iff_eq.1 hs.2⟩
  | false => exact no.pre fun s hs => ⟨hs.1, beq_eq_false_iff_ne.1 hs.2⟩

theorem expect_tells {t : Token} : Tells (Told items l) (expect t) fun _ => ToldFresh items l :=
  Tells.expect fun _ hs _ => hs.advance

/-- A token that ends what could go on. -/
theorem expect_ends {t : Token} (ht : t.ends) :
    Tells (Told items l) (expect t) fun _ => ToldEnd items l :=
  Tells.expect fun _ hs next => hs.close next ht

/-- Behind an identifier comes what was second before it. -/
theorem identifier_tells {N : Option Token → Prop} :
    Tells (fun s => Told items l s ∧ N (s.tokenAt? 1)) identifier
      fun _ s => ToldEnd items l s ∧ N s.token? := by
  refine Tells.peek fun next => ?_
  split
  · refine Tells.see (fun _ => rfl) fun place => ?_
    refine (Tells.advance fun s hs => ?_).last fun _ _ => id
    exact ⟨hs.1.1.1.close hs.1.2 rfl, s.token?_advance ▸ hs.1.1.2⟩
  · exact Tells.unexpected

theorem ident_tells : Tells (Told items l) identifier fun _ => ToldEnd items l :=
  (identifier_tells (N := fun _ => True)).mono (fun _ hs => ⟨hs, trivial⟩) fun _ _ => And.left

/-- An identifier that is not there changes nothing. -/
theorem identifier?_tells : Tells (Told items l) identifier? fun r s =>
    r.elim (Told items l s) fun _ => ToldFresh items l s := by
  refine Tells.peek fun next => ?_
  split
  · exact (ident_tells.pre fun _ => And.left).map fun _ _ hs => hs.toToldFresh
  · exact Tells.pure fun _ => And.left

theorem subtag_tells : Tells (Told items l) subtag fun _ => ToldEnd items l := by
  refine Tells.node (ident_tells.bind fun _ => (Tells.loop ?_).last fun _ _ => id) fun _ _ _ => id
  exact Tells.after (fun s hs _ => hs.advance.toTold) ident_tells (fun _ _ => id) fun _ hs _ => hs

theorem subtagList_tells : Tells (Told items l) subtagList fun _ => ToldEnd items l := by
  refine expect_tells.bind fun _ => ?_
  refine Tells.bind (R := fun _ => ToldFresh items l) ?_ fun _ =>
    (Tells.expect fun s hs next => hs.close next rfl).last fun _ _ => id
  refine Tells.commaList (I := fun _ => ToldFresh items l) (fun _ => ?_) fun _ _ hs _ => hs.advance
  exact subtag_tells.mono (fun _ hs => hs.toTold) fun _ _ hs => hs.toToldFresh

theorem annex_tells : Tells (Told items l) annex fun _ => ToldEnd items l := by
  refine Tells.node (Tells.peek fun next => ?_) fun _ _ _ => id
  split
  · refine (Tells.advance fun s hs => hs.1.close hs.2 rfl).bind fun _ => ?_
    refine Tells.see (v := id) (fun _ => rfl) fun _ => ?_
    refine Tells.ite (Tells.pure fun _ => And.left) (Tells.ite ?_ ?_)
    · exact Tells.see (fun _ => rfl) fun _ => Tells.invalid
    · exact (subtagList_tells.pre fun _ hs => hs.1.toTold).last fun _ _ => id
  · exact Tells.see (fun _ => rfl) fun _ => Tells.invalid
  · exact Tells.unexpected

theorem name_tells : Tells (Told items l) name fun _ => ToldEnd items l := by
  refine Tells.see annexAhead_run fun annex => Tells.ite ?_ (Tells.peek fun next => ?_)
  · exact (annex_tells.pre fun _ => And.left).last fun _ _ => id
  · split
    · exact (ident_tells.pre fun _ hs => hs.1.1).last fun _ _ => id
    · exact Tells.unexpected

end Names

section Binders

variable (hg : g.Telling items)
include hg

/-- Behind an expression that may be as weak as an application, no argument is left. -/
theorem weakExpr_tells (least : Prec) (weak : least ≤ .application) : Tells (Told items l) (g.expr least)
    fun e s => ToldEnd items (l ++ e.choices least) s ∧ s.token? ≠ some (.symbol .leftParen) := by
  refine ((hg.expr least l).besides fun run _ _ => hg.groups.expr least _ _ _ run).post fun e s hs => ?_
  obtain ⟨told, -, -, below⟩ := hs
  have paren := below.token?_ne weak
  rw [argument_eq_nil paren, List.append_nil] at told
  exact ⟨told, paren⟩

theorem anyExpr_tells :
    Tells (Told items l) (anyExpr g) fun e => ToldEnd items (l ++ e.choices .bottom) :=
  (weakExpr_tells hg _ (by decide)).post fun _ _ => And.left

theorem typed_tells : Tells (Told items l) (typed g) fun b s =>
    ∃ ident ty place, b = .typed ident ty place ∧ ToldEnd items (l ++ ty.choices .bottom) s := by
  refine Tells.node (R := fun p => ToldEnd items (l ++ p.2.choices .bottom)) ?_
    fun p place s hs => ⟨p.1, p.2, place, rfl, hs⟩
  refine ident_tells.bind fun _ => expect_tells.behind.bind fun _ => ?_
  exact (anyExpr_tells hg).fresh.last fun _ _ => id

theorem group_tells : Tells (Told items l) (group g) fun b s =>
    ∃ names ty place, b = .group names ty place ∧ ToldEnd items (l ++ ty.choices .bottom) s := by
  refine Tells.node (R := fun p => ToldEnd items (l ++ p.2.choices .bottom)) ?_
    fun p place s hs => ⟨p.1, p.2, place, rfl, hs⟩
  refine (Tells.loop (identifier?_tells.post fun r s hs => ?_)).bind fun _ => ?_
  · cases r with
    | none => exact hs
    | some _ => exact hs.toTold
  · exact expect_tells.bind fun _ => (anyExpr_tells hg).fresh.last fun _ _ => id

theorem nestedTuple_tells (bracket : Bracket) (least : Prec) :
    Tells (fun s => Told items l s ∧ s.token? = some bracket.open_) (g.tuple bracket)
      fun b s => ToldEnd items (l ++ b.choices least) s ∧ b.isTuple :=
  ((hg.tuple bracket l).besides fun run _ _ => hg.isTuple run).post fun b s hs => by
    rwa [b.choices_of_isTuple hs.2]

theorem pattern_tells (least : Prec) : Tells (Told items l) (pattern g) fun b s =>
    ToldEnd items (l ++ b.choices least) s ∧ b.atEnd s.token? = [] := by
  refine Tells.peek fun next => ?_
  split
  · exact (nestedTuple_tells hg .round least).post fun b s hs => ⟨hs.1, b.atEnd_of_isTuple hs.2 _⟩
  · refine colonFollows_tells ?_ ?_
    · refine (typed_tells hg).mono (fun s hs => hs.1.1) ?_
      rintro _ s ⟨ident, ty, place, rfl, told⟩
      exact ⟨told, rfl⟩
    · refine ((identifier_tells (N := (· ≠ some (.symbol .colon)))).pre fun s hs =>
        ⟨hs.1.1, hs.2⟩).last fun ident s hs => ?_
      exact ⟨by simpa [Binder.choices] using hs.1, if_neg hs.2⟩
  · exact Tells.unexpected

omit hg in
/-- A pattern that begins with a name could be a type. -/
theorem pattern_ident {b : Binder} {name : String} (run : pattern g s = .ok b s')
    (next : s.token? = some (.ident name)) : b.asPattern = [.patternOverBattern] := by
  unfold pattern at run
  rw [peek_bind, next] at run
  change (colonFollows >>= fun colon =>
    if colon then typed g else do return .name (← identifier)) s = _ at run
  obtain ⟨colon, s₁, -, run⟩ := bind_ok.1 run
  cases colon with
  | true =>
      obtain ⟨_, _, -, done⟩ := bind_ok.1 run
      obtain ⟨rfl, -⟩ := pure_ok.1 done
      rfl
  | false =>
      obtain ⟨_, _, -, done⟩ := bind_ok.1 run
      obtain ⟨rfl, -⟩ := pure_ok.1 done
      rfl

theorem pattern_paren {b : Binder} (run : pattern g s = .ok b s')
    (next : s.token? = some (.symbol .leftParen)) : b.isTuple := by
  unfold pattern at run
  rw [peek_bind, next] at run
  exact hg.isTuple run

theorem battern_tells (least : Prec) (weak : least ≤ .application) :
    Tells (Told items l) (battern g least) fun b s =>
      ToldEnd items (l ++ b.choices least) s ∧ ∀ bracket, b.asElement bracket = [] := by
  have type_ : Tells (Told items l) (do return Binder.type (← g.expr least)) fun b s =>
      ToldEnd items (l ++ b.choices least) s ∧ ∀ bracket, b.asElement bracket = [] :=
    (weakExpr_tells hg _ weak).last fun e s hs => ⟨hs.1, fun bracket => by cases bracket <;> rfl⟩
  refine Tells.peek fun next => ?_
  split
  · exact (nestedTuple_tells hg .square least).post fun b s hs => ⟨hs.1, b.asElement_of_isTuple hs.2⟩
  · refine colonFollows_tells ?_ (type_.pre fun s hs => hs.1.1)
    refine (typed_tells hg).mono (fun s hs => hs.1.1) ?_
    rintro _ s ⟨ident, ty, place, rfl, told⟩
    exact ⟨told, fun bracket => by cases bracket <;> rfl⟩
  · exact type_.pre fun _ => And.left

theorem battern_bracket {b : Binder} (run : battern g least s = .ok b s')
    (next : s.token? = some (.symbol .leftBracket)) : b.isTuple := by
  unfold battern at run
  rw [peek_bind, next] at run
  exact hg.isTuple run

omit hg in
/-- A choice is told of at the next token. -/
theorem noteHere_tells {α : Type} {rule : TieBreak} {N : List Item → Prop} {f : Unit → Parser α}
    {Q : α → Reading → Prop} (ahead : rule.isAhead)
    (hf : Tells (fun s => Told items (l ++ [rule]) s ∧ N s.rest) (f ()) Q) :
    Tells (fun s => (ToldFresh items l s ∧ s.token?.isSome) ∧ N s.rest)
      (span >>= fun place => note rule place >>= f) Q := by
  refine Tells.see (fun _ => rfl) fun place => Tells.bind (Tells.note fun s hs => ?_) fun _ => hf
  obtain ⟨⟨⟨fresh, next⟩, rest⟩, rfl⟩ := hs
  obtain ⟨t, next⟩ := Option.isSome_iff_exists.1 next
  refine ⟨fresh.notes next [rule] (by simp) (by simpa using ahead), ?_⟩
  rwa [Reading.rest_note]

/-- One element of a tuple. -/
theorem element_tells (bracket : Bracket) : Tells (ToldFresh items l) (element g bracket) fun b =>
    ToldFresh items (l ++ (b.asElement bracket ++ b.choices .bottom)) := by
  refine Tells.see (fun _ => groupAhead_run) fun ahead => ?_
  cases ahead with
  | true =>
      have next {s : Reading} (h : isGroupAhead (s.rest.map Item.token) = true) :
          s.token?.isSome := by
        obtain ⟨name, head⟩ := isIdent_of_isGroupAhead h
        simp only [List.head?_map] at head
        simp [Reading.token?, head]
      rw [if_pos rfl]
      split
      · next round =>
          subst round
          refine (group_tells hg).mono (fun s hs => hs.1.toTold) ?_
          rintro _ s ⟨names, ty, place, rfl, told⟩
          exact told.toToldFresh
      · next other =>
          refine Tells.pre (noteHere_tells (N := fun _ => True) (l := l) rfl
            (((group_tells hg).pre fun _ => And.left).post ?_)) fun s hs => ⟨⟨hs.1, next hs.2⟩, trivial⟩
          rintro _ s ⟨names, ty, place, rfl, told⟩
          cases bracket with
          | round => exact absurd rfl other
          | square | curly => simpa [Binder.asElement, Binder.choices] using told.toToldFresh
  | false =>
      have battern_ : Tells (ToldFresh items l) (battern g .bottom) fun b =>
          ToldFresh items (l ++ (b.asElement bracket ++ b.choices .bottom)) :=
        (battern_tells hg _ (by decide)).mono (fun _ hs => hs.toTold) fun b s hs => by
          simpa [hs.2 bracket] using hs.1.toToldFresh
      cases bracket with
      | round =>
          refine (pattern_tells hg .bottom).mono (fun s hs => hs.1.toTold) ?_
          intro b s hs
          have apart : b.asElement .round = [] := by cases b <;> rfl
          simpa [apart] using hs.1.toToldFresh
      | square | curly => exact battern_.pre fun _ => And.left

omit hg in
theorem Binder.elementChoices_eq (bracket : Bracket) (bs : List Binder) :
    Binder.elementChoices bracket bs = bs.flatMap fun b => b.asElement bracket ++ b.choices .bottom := by
  induction bs with
  | nil => rfl
  | cons b bs ih => rw [Binder.elementChoices, ih, List.flatMap_cons]

/-- A tuple is closed again. -/
theorem tuple_tells (bracket : Bracket) :
    Tells (fun s => Told items l s ∧ s.token? = some bracket.open_) (tuple g bracket)
      fun b s => ToldEnd items (l ++ b.choices .bottom) s := by
  have closed : bracket.close.ends := by cases bracket <;> rfl
  refine Tells.node (R := fun bs => ToldEnd items (l ++ Binder.elementChoices bracket bs)) ?_
    fun bs place s => id
  refine (Tells.advance fun s hs => hs.1.advance).bind fun _ => ?_
  refine (Tells.list fun l => element_tells hg bracket).bind fun bs => ?_
  refine (Tells.expect fun s hs next => hs.close next closed).last fun _ s told => ?_
  rwa [Binder.elementChoices_eq]

/-- What a `let`, a `ret`, a rule or an arm binds. -/
theorem binder_tells (annotated : Bool) : Tells (ToldFresh items l) (binder g annotated) fun b s =>
    ToldEnd items (l ++ b.asPattern ++ b.atEnd s.token? ++ b.choices .pi) s := by
  refine Tells.peek fun next => ?_
  split
  · refine (((pattern_tells hg .pi).pre fun s hs => hs.1.toTold).besides (R := fun b _ => b.isTuple)
      fun run _ hs => pattern_paren hg run hs.2).post fun b s hs => ?_
    obtain ⟨⟨told, -⟩, tuple⟩ := hs
    rwa [b.asPattern_of_isTuple tuple, b.atEnd_of_isTuple tuple, List.append_nil, List.append_nil]
  · refine (((battern_tells hg .pi (by decide)).pre fun s hs => hs.1.toTold).besides
      (R := fun b _ => b.isTuple) fun run _ hs => battern_bracket hg run hs.2).post fun b s hs => ?_
    obtain ⟨⟨told, -⟩, tuple⟩ := hs
    rwa [b.asPattern_of_isTuple tuple, b.atEnd_of_isTuple tuple, List.append_nil, List.append_nil]
  · next name =>
      refine Tells.see (fun _ => rfl) fun place => Tells.bind (R := fun _ s =>
        (Told items (l ++ [.patternOverBattern]) s ∧
          Told items (l ++ [.patternOverBattern, .typeToEnclosingForm])
            (s.note .typeToEnclosingForm place)) ∧ s.token? = some (.ident name))
        (Tells.note fun s hs => ?_) fun _ => Tells.ite ?_ ?_
      · obtain ⟨⟨fresh, next⟩, rfl⟩ := hs
        refine ⟨⟨?_, ?_⟩, by rwa [Reading.token?, Reading.rest_note]⟩
        · exact fresh.notes next [.patternOverBattern] (by decide) (by decide)
        · exact fresh.notes next [.patternOverBattern, .typeToEnclosingForm] (by decide)
            (by decide)
      · refine (((pattern_tells hg .pi).pre fun s hs => hs.1.1).besides
          (R := fun b _ => b.asPattern = [.patternOverBattern])
          fun run _ hs => pattern_ident run hs.2).post fun b s hs => ?_
        obtain ⟨⟨told, atEnd⟩, asPattern⟩ := hs
        rwa [asPattern, atEnd, List.append_nil]
      · refine colonFollows_tells ?_ ?_
        · refine Tells.bind (R := fun _ s => Told items
            (l ++ [.patternOverBattern, .typeToEnclosingForm]) s ∧
              s.tokenAt? 1 = some (.symbol .colon)) (Tells.note fun s hs => ⟨hs.1.1.2, ?_⟩) fun _ => ?_
          · refine (identifier_tells (N := (· = some (.symbol .colon)))).last fun ident s hs => ?_
            simpa [Binder.asPattern, Binder.atEnd, Binder.choices, hs.2] using hs.1
          · rw [Reading.tokenAt?, Reading.rest_note]
            exact hs.2
        · refine ((identifier_tells (N := (· ≠ some (.symbol .colon)))).pre fun s hs =>
            ⟨hs.1.1.1, hs.2⟩).last fun ident s hs => ?_
          simpa [Binder.asPattern, Binder.atEnd, Binder.choices, hs.2] using hs.1
  · refine Tells.ite ?_ Tells.unexpected
    refine ((weakExpr_tells hg .pi (by decide)).pre fun s hs => hs.1.toTold).last
      fun e s hs => ?_
    simpa [Binder.asPattern, Binder.atEnd, Binder.choices, argument_eq_nil hs.2] using hs.1
  · exact Tells.unexpected

/-- The domain of a function. -/
theorem domain_tells : Tells (ToldFresh items l) (domain g) fun b s =>
    ToldEnd items (l ++ (b.choices .union ++ b.atEnd s.token?)) s := by
  refine Tells.peek fun next => ?_
  split
  · refine (pattern_tells hg .union).mono (fun s hs => hs.1.toTold) fun b s hs => ?_
    rw [hs.2, List.append_nil]
    exact hs.1
  · refine (((battern_tells hg .pi (by decide)).pre fun s hs => hs.1.toTold).besides
      (R := fun b _ => b.isTuple) fun run _ hs => battern_bracket hg run hs.2).post fun b s hs => ?_
    obtain ⟨⟨told, -⟩, tuple⟩ := hs
    rw [b.choices_of_isTuple tuple] at told ⊢
    rwa [b.atEnd_of_isTuple tuple, List.append_nil]
  · refine (nestedTuple_tells hg .curly .union).mono (fun s hs => ⟨hs.1.toTold, hs.2⟩) fun b s hs => ?_
    rw [b.atEnd_of_isTuple hs.2, List.append_nil]
    exact hs.1
  · refine colonFollows_tells ?_ ?_
    · have name : Tells (fun s => Told items (l ++ [.typeToEnclosingForm]) s ∧
          s.tokenAt? 1 = some (.symbol .colon)) (do return Binder.name (← identifier)) fun b s =>
            ToldEnd items (l ++ (b.choices .union ++ b.atEnd s.token?)) s :=
        (identifier_tells (N := (· = some (.symbol .colon)))).last fun ident s hs => by
          simpa [Binder.atEnd, Binder.choices, hs.2] using hs.1
      exact Tells.pre (noteHere_tells (N := fun is => is[1]?.map Item.token = some (.symbol .colon))
        rfl name) fun s hs => ⟨⟨hs.1.1, by simp [hs.1.2]⟩, hs.2⟩
    · refine ((identifier_tells (N := (· ≠ some (.symbol .colon)))).pre fun s hs =>
        ⟨hs.1.1.toTold, hs.2⟩).last fun ident s hs => ?_
      simpa [Binder.atEnd, Binder.choices, hs.2] using hs.1
  · refine Tells.ite ?_ Tells.unexpected
    refine ((hg.expr .union l).pre fun s hs => hs.1.toTold).last fun e s hs => ?_
    simpa [Binder.atEnd, Binder.choices] using hs
  · exact Tells.unexpected

theorem piDomain_tells : Tells (Told items l) (piDomain g) fun b =>
    ToldEnd items (l ++ b.choices .pi) := by
  refine Tells.sees ((nestedTuple_tells hg .curly .pi).post fun _ _ => And.left) ?_
  exact (battern_tells hg _ (by decide)).mono (fun _ => And.left) fun _ _ => And.left

end Binders

end Grammar

end Mim
