import Mim.Proofs.Choices.Binders

/-! # A clean run tells of the choices in domains and parameters

Behind a domain it makes a difference what comes next, which is another domain, or a colon, or
neither. So what stands in a row is told of from one to the next.
-/

namespace Mim

open Grammar
open Reading (Told ToldFresh ToldEnd)
open TieBreak (argument misplaced argument_eq_nil misplaced_of_startsDomain)
open Token (startsDomain)

namespace Grammar

variable {items : List Item} {l : List TieBreak} {g : Nested}

/-- Things in a row that are each told of by what comes next, and the row by whether a colon
    comes behind it. -/
structure Row (α : Type) where
  told : Option Token → α → List TieBreak
  opening : α → Option Token
  next : Bool → List α → Option Token
  each : Bool → List α → List TieBreak
  /-- Behind the row only a colon makes a difference. -/
  told_behind {next : Option Token} (h : next ≠ some (.symbol .leftParen)) (a : α) :
    told next a = told (if next = some (.symbol .colon) then some (.symbol .colon) else none) a
  next_nil (colon : Bool) : next colon [] = if colon then some (.symbol .colon) else none
  next_cons (colon : Bool) (a : α) (as : List α) : next colon (a :: as) = opening a
  each_nil (colon : Bool) : each colon [] = []
  each_cons (colon : Bool) (a : α) (as : List α) :
    each colon (a :: as) = told (next colon as) a ++ misplaced (next colon as) ++ each colon as

/-- Domains in a row. -/
def Row.domains : Row Binder where
  told next b := b.choices .union ++ b.atEnd next
  opening b := b.layout.opening
  next := Binder.next
  each := Binder.choicesEach
  told_behind {next} h b := by
    by_cases colon : next = some (.symbol .colon)
    · rw [if_pos colon, colon]
    · rw [if_neg colon, b.atEnd_eq_nil colon h, b.atEnd_eq_nil (t := none) nofun nofun]
  next_nil _ := rfl
  next_cons _ _ _ := rfl
  each_nil _ := rfl
  each_cons _ _ _ := rfl

/-- What is told of a parameter. -/
def paramChoices (next : Option Token) : Param → List TieBreak
  | ⟨domain, none, _⟩ => domain.choices .union ++ domain.atEnd next
  | ⟨domain, some filter, _⟩ =>
    domain.choices .union ++ domain.atFilter ++ filter.choices .union ++
      argument filter.endsInAnnex next

/-- Parameters in a row. -/
def Row.params : Row Param where
  told := paramChoices
  opening p := p.domain.layout.opening
  next := Param.next
  each := Param.choicesEach
  told_behind {next} h p := by
    obtain ⟨domain, _ | filter, place⟩ := p
    · exact Row.domains.told_behind h domain
    · by_cases colon : next = some (.symbol .colon)
      · rw [if_pos colon, colon]
      · rw [if_neg colon, paramChoices, argument_eq_nil h, paramChoices,
          argument_eq_nil (t := none) nofun]
  next_nil _ := rfl
  next_cons _ _ _ := rfl
  each_nil _ := rfl
  each_cons _ p _ := by obtain ⟨domain, _ | filter, place⟩ := p <;> rfl

namespace Row

variable {α : Type} {row : Row α} {step : Parser (Option α)}

theorem misplaced_next_nil (row : Row α) (colon : Bool) : misplaced (row.next colon []) = [] := by
  rw [row.next_nil]
  cases colon <;> rfl

/-- How a row goes on: with one more that begins a domain, or at its end with no argument. -/
def Goes (items : List Item) (row : Row α) (step : Parser (Option α)) : Prop :=
  ∀ (l : List TieBreak) (t : Option Token), Tells (fun s => ToldFresh items l s ∧ s.token? = t) step
    fun r s => r.elim ((ToldFresh items l s ∧ s.token? = t) ∧ t ≠ some (.symbol .leftParen)) fun a =>
      (ToldFresh items (l ++ row.told s.token? a) s ∧ row.opening a = t) ∧ t.any startsDomain

/-- A row that goes on with what begins a domain, and at a parenthesis at any rate. -/
theorem Goes.of_run {p : Parser α} {begins : Token → Bool}
    (run : ∀ s : Reading, step s = (if s.token?.any begins then some <$> p else pure none) s)
    (domain : ∀ t, begins t → t.startsDomain) (paren : begins (.symbol .leftParen))
    (hp : ∀ (l : List TieBreak) (t : Option Token), Tells (fun s => ToldFresh items l s ∧ s.token? = t) p
      fun a s => ToldFresh items (l ++ row.told s.token? a) s ∧ row.opening a = t) :
    row.Goes items step := by
  intro l t s r s' done clean
  rw [run] at done
  split at done
  · next more =>
      rw [map_eq_bind] at done
      obtain ⟨a, s₁, first, last⟩ := bind_ok.1 done
      obtain ⟨rfl, rfl⟩ := pure_ok.1 last
      have ⟨clean₀, told⟩ := hp l t first clean
      refine ⟨clean₀, fun hs => ⟨told hs, ?_⟩⟩
      obtain ⟨u, next, hu⟩ := (Option.any_eq_true ..).1 more
      rw [← hs.2, next]
      exact domain u hu
  · next ends =>
      obtain ⟨rfl, rfl⟩ := pure_ok.1 done
      refine ⟨clean, fun hs => ⟨hs, fun next => ends ?_⟩⟩
      rw [hs.2, next]
      exact paren

/-- The rest of a row, behind one that is told of as soon as the next token is known. -/
theorem rest_tells (adv : Advances step) (h : row.Goes items step) (a : α) :
    Tells (fun s => ToldFresh items (l ++ row.told s.token? a) s) (many step) fun as s =>
      ToldFresh items (l ++ row.each (s.token? == some (.symbol .colon)) (a :: as)) s := by
  intro s as s' run clean
  have repeats := (many_ok adv).1 run
  clear run
  induction repeats generalizing l a with
  | @stop s s' run =>
      have ⟨clean₀, told⟩ := h (l ++ row.told s.token? a) s.token? run clean
      refine ⟨clean₀, fun hs => ?_⟩
      obtain ⟨⟨told, next⟩, paren⟩ := told ⟨hs, rfl⟩
      rw [row.told_behind paren, ← next] at told
      rw [row.each_cons, row.each_nil, row.misplaced_next_nil, row.next_nil, List.append_nil,
        List.append_nil]
      simpa using told
  | @more s s₁ s' b bs run _ ih =>
      have ⟨clean₁, told₁⟩ := ih (l := l ++ row.told s.token? a) b clean
      have ⟨clean₀, told⟩ := h (l ++ row.told s.token? a) s.token? run clean₁
      refine ⟨clean₀, fun (hs : ToldFresh items (l ++ row.told s.token? a) s) => ?_⟩
      obtain ⟨⟨told, opening⟩, begins⟩ := told ⟨hs, rfl⟩
      rw [row.each_cons, row.next_cons, opening, misplaced_of_startsDomain begins]
      simpa using told₁ told

/-- A row from its start. -/
theorem many_tells (adv : Advances step) (h : row.Goes items step) :
    Tells (ToldFresh items l) (many step) fun as s =>
      ToldFresh items (l ++ (misplaced (row.next (s.token? == some (.symbol .colon)) as) ++
        row.each (s.token? == some (.symbol .colon)) as)) s := by
  intro s as s' loop clean
  beta_reduce
  cases (many_ok adv).1 loop with
  | stop run =>
      have ⟨clean₀, told⟩ := h l s.token? run clean
      refine ⟨clean₀, fun hs => ?_⟩
      rw [row.misplaced_next_nil, row.each_nil, List.append_nil, List.append_nil]
      exact (told ⟨hs, rfl⟩).1.1
  | @more _ s₁ _ b bs run rest =>
      have ⟨clean₁, told₁⟩ := rest_tells (l := l) adv h b ((many_ok adv).2 rest) clean
      have ⟨clean₀, told⟩ := h l s.token? run clean₁
      refine ⟨clean₀, fun hs => ?_⟩
      obtain ⟨⟨told, opening⟩, begins⟩ := told ⟨hs, rfl⟩
      rw [row.next_cons, opening, misplaced_of_startsDomain begins, List.nil_append]
      exact told₁ told

/-- A row with a first one of its own. -/
theorem many1_tells {P : Reading → Prop} {first : Parser α} (adv : Advances step)
    (hf : Tells P first fun a s => ToldFresh items (l ++ row.told s.token? a) s)
    (h : row.Goes items step) : Tells P (many1 first step) fun as s =>
      ToldFresh items (l ++ row.each (s.token? == some (.symbol .colon)) as) s :=
  hf.bind fun a => (rest_tells adv h a).last fun _ _ => id

end Row

variable (hg : g.Telling items)
include hg

/-- What is read of a domain begins with the next token. -/
theorem domain_opens (t : Option Token) : Tells (fun s => ToldFresh items l s ∧ s.token? = t) (domain g)
    fun b s => ToldEnd items (l ++ (b.choices .union ++ b.atEnd s.token?)) s ∧ b.layout.opening = t :=
  (domain_tells hg).opening (fun _ hs => hs.toTold) (domain_spells hg.spelled)

theorem domain?_goes : Row.domains.Goes items (domain? g) :=
  .of_run (domain?_run g) (fun _ => id) rfl fun _ t =>
    (domain_opens hg t).post fun _ _ hs => ⟨hs.1.toToldFresh, hs.2⟩

theorem pattern?_goes : Row.domains.Goes items (pattern? g) := by
  refine .of_run (pattern?_run g) (fun t ht => ?_) rfl fun l t => ?_
  · cases t with
    | ident => rfl
    | symbol sign => cases sign <;> first | rfl | cases ht
    | _ => cases ht
  · refine ((pattern_tells hg .union).fresh.opening (fun _ hs => hs.toTold)
      (pattern_spells hg.spelled)).post fun b s hs => ⟨?_, hs.2⟩
    obtain ⟨⟨told, atEnd⟩, -⟩ := hs
    change ToldFresh items (l ++ (b.choices .union ++ b.atEnd s.token?)) s
    rw [atEnd, List.append_nil]
    exact told.toToldFresh

/-- What a colon behind a row introduces is told of with the row. -/
theorem codomain_tells {c : Bool → List TieBreak} :
    Tells (fun s => ToldFresh items (c (s.token? == some (.symbol .colon))) s)
      (after (.symbol .colon) (anyExpr g)) fun e =>
        ToldFresh items (c e.isSome ++ Expr.choices? .bottom e) := by
  refine Tells.after (fun s hs next => ?_) (anyExpr_tells hg (l := c true)).fresh
    (fun e s hs => hs.toToldFresh) fun s hs next => ?_
  · rw [next, beq_self_eq_true] at hs
    exact hs.advance
  · rw [beq_eq_false_iff_ne.2 next] at hs
    simpa [Expr.choices?] using hs

theorem param_tells (t : Option Token) : Tells (fun s => ToldFresh items l s ∧ s.token? = t) (param g)
    fun p s => ToldFresh items (l ++ paramChoices s.token? p) s ∧ p.domain.layout.opening = t := by
  refine Tells.node (R := fun p s => ToldFresh items (l ++ paramChoices s.token? ⟨p.1, p.2, .zero⟩) s ∧
    p.1.layout.opening = t) ?_ fun p place s hs => by obtain ⟨domain, _ | filter⟩ := p <;> exact hs
  refine (domain_opens hg t).bind fun domain => Tells.sees ?_ ?_
  · have atEnd : domain.atEnd (some (.symbol .atSign)) = [] :=
      domain.atEnd_eq_nil (t := some (.symbol .atSign)) nofun nofun
    have filter : Tells (fun s => Told items (l ++ (domain.choices .union ++ domain.atFilter)) s ∧
        domain.layout.opening = t) (do advance; return (domain, some (← g.expr .union))) fun p s =>
          ToldFresh items (l ++ paramChoices s.token? ⟨p.1, p.2, .zero⟩) s ∧ p.1.layout.opening = t := by
      refine Tells.bind (R := fun _ s => ToldFresh items (l ++ (domain.choices .union ++
        domain.atFilter)) s ∧ domain.layout.opening = t)
        (Tells.advance fun s hs => ⟨hs.1.advance, hs.2⟩) fun _ => ?_
      refine Tells.last (((hg.expr .union _).pre fun s hs => hs.1.toTold).besides
        (R := fun _ _ => domain.layout.opening = t) fun _ _ hs => hs.2) fun e s hs => ⟨?_, hs.2⟩
      simpa [paramChoices] using hs.1.toToldFresh
    cases domain with
    | type ty =>
        have noted := filter.pre fun s (hs : Told items (l ++ ty.choices .union ++
          [.filterOverExplicitApplication]) s ∧ (Binder.type ty).layout.opening = t) =>
            ⟨by simpa [Binder.choices, Binder.atFilter] using hs.1, hs.2⟩
        refine Tells.pre (noteHere_tells (N := fun _ => (Binder.type ty).layout.opening = t) rfl noted)
          fun s hs => ?_
        obtain ⟨⟨told, opening⟩, next⟩ := hs
        rw [next, atEnd] at told
        exact ⟨⟨by simpa [Binder.choices] using told.toToldFresh, by simp [next]⟩, opening⟩
    | name | typed | group | tuple =>
        refine filter.pre fun s hs => ⟨?_, hs.1.2⟩
        obtain ⟨⟨told, -⟩, next⟩ := hs
        rw [next, atEnd] at told
        simpa [Binder.atFilter] using told.toTold
  · exact Tells.pure fun s hs => ⟨hs.1.1.toToldFresh, hs.1.2⟩

theorem param?_goes : Row.params.Goes items (param? g) :=
  .of_run (param?_run g) (fun _ => id) rfl fun _ t => param_tells hg t

end Grammar

end Mim
