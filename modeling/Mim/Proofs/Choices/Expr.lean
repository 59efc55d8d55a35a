import Mim.Proofs.Choices.Operands

/-! # A clean run tells of the choices in an expression, whatever is nested in it

What stands behind an operator, and the rules of the whole grammar by induction on how deep
forms may be nested.
-/

namespace Mim

open Grammar
open Reading (Told ToldFresh ToldEnd)
open Simulation (Anywhere)
open TieBreak (argument misplaced argument_eq_nil misplaced_of_startsDomain)

variable {items : List Item} {l : List TieBreak} {s s' : Reading} {least : Prec}

/-- What has been told of an expression that has just been read, up to the next token. -/
def Expr.IsTold (items : List Item) (l : List TieBreak) (least : Prec) (e : Expr) (s : Reading) :
    Prop := e.form.IsTold items l least s

theorem Expr.isTold_iff {e : Expr} : e.IsTold items l least s ↔
    ToldEnd items (l ++ e.choices least ++ argument e.endsInAnnex s.token?) s := by
  cases e
  rfl

/-- Where no parenthesis comes next, an expression has no argument. -/
theorem Expr.IsTold.alone {e : Expr} (h : e.IsTold items l least s)
    (paren : s.token? ≠ some (.symbol .leftParen)) : ToldEnd items (l ++ e.choices least) s := by
  rwa [isTold_iff, argument_eq_nil paren, List.append_nil] at h

theorem Expr.lastEndsInAnnex_append (e : Expr) (es : List Expr) :
    Expr.lastEndsInAnnex (es ++ [e]) = e.endsInAnnex := by
  induction es with
  | nil => rfl
  | cons d es ih =>
      cases es with
      | nil => rfl
      | cons d' es => exact ih

theorem Expr.choicesEach_append (first others : Prec) (d : Expr) (es : List Expr) (e : Expr) :
    Expr.choicesEach first others (d :: es ++ [e]) =
      Expr.choicesEach first others (d :: es) ++ e.choices others := by
  induction es generalizing first d with
  | nil => simp [Expr.choicesEach]
  | cons d' es ih =>
      change d.choices first ++ Expr.choicesEach others others (d' :: es ++ [e]) =
        d.choices first ++ Expr.choicesEach others others (d' :: es) ++ e.choices others
      rw [ih, List.append_assoc]

/-- Two operands with nothing in between are an application where a domain may begin. -/
theorem Operator.startsDomain_of_application {t : Token}
    (h : Operator.ofToken? t = some .application) : t.startsDomain := by
  unfold Operator.ofToken? at h
  split at h
  all_goals first
    | cases h
    | (split at h
       · assumption
       · cases h)

namespace Grammar

section Recovery

variable {α : Type} {P : Reading → Prop} {Q : α → Reading → Prop} {inWhere : Bool}

/-- A clean run recovers from nothing. -/
theorem Tells.recovering [Spanned α] {p : Parser α} (hp : Tells P p Q)
    (inStep : ∀ {σ : Simulation} {N : Option Token → Prop} {m : Nat}, σ.InStep N 1 (m + 1) p p)
    (told : ∀ s, P s → Told items l s ∧ s.token? ≠ none) :
    Tells P (recovering inWhere p) fun r s => ∃ a, r = .ok a ∧ Q a s := by
  intro s r s' run clean
  cases first : p s with
  | ok a s₁ =>
      rw [recovering_ok first] at run
      cases run
      have ⟨clean₀, holds⟩ := hp first clean
      exact ⟨clean₀, fun hs => ⟨a, rfl, holds hs⟩⟩
  | error e s₁ =>
      constructor
      · rw [recovering_error first] at run
        cases run
        obtain ⟨⟨⟨cs, after⟩, -⟩, -⟩ := (inStep (N := Anywhere)).onward_error trivial first
        apply clean.of_suffix
        rw [Reading.recorded_recover]
        exact (after.trans (.report e)).recorded
      · intro hs
        have ⟨told, next⟩ := told s hs
        obtain ⟨a, -, done⟩ := recovering_clean inStep next run ⟨told.clean_rest, clean⟩
        rw [first] at done
        cases done

theorem Tells.declarationOrError {p : Parser Decl} {Q : Decl → Reading → Prop} (hp : Tells P p Q)
    (inStep : ∀ {σ : Simulation} {N : Option Token → Prop} {m : Nat}, σ.InStep N 1 (m + 1) p p)
    (told : ∀ s, P s → Told items l s ∧ s.token? ≠ none) :
    Tells P (declarationOrError inWhere p) Q := by
  refine (hp.recovering inStep told).bind fun r => ?_
  cases r with
  | ok d =>
      refine Tells.pure fun s hs => ?_
      obtain ⟨_, same, hs⟩ := hs
      cases same
      exact hs
  | error place =>
      refine Tells.pure fun s hs => ?_
      obtain ⟨_, same, -⟩ := hs
      cases same

end Recovery

variable {g : Nested} (hg : g.Telling items)
include hg

section Expressions

theorem wherePart?_tells : Tells (Told items l) (wherePart? g) fun r =>
    Told items (l ++ r.elim [] fun d => d.elim [] Decl.choices) := by
  refine Tells.accept (S := Told items l) (fun s hs _ => hs.advance.toTold)
    (Tells.pure fun s hs => by simpa using hs) (Tells.peek fun next => ?_)
  split
  · exact Tells.pure fun s hs => by simpa using hs.1.1
  · exact Tells.pure fun s hs => by simpa using hs.1.1
  · next t _ =>
      refine Tells.last (Tells.declarationOrError
        ((declaration_tells hg).pre fun s (hs : (Told items l s ∧ _) ∧ _) => hs.1.1)
        (declaration_inStep hg.groups.inStep) fun s hs => ⟨hs.1.1, by simp [hs.2]⟩) fun d s hs => ?_
      exact hs.toTold

theorem whereBody_tells : Tells (Told items l) (whereBody g) fun ds =>
    ToldEnd items (l ++ Decl.choicesEach ds) := by
  refine (Tells.each fun l => wherePart?_tells hg (l := l)).bind fun parts => ?_
  have choices : Decl.choicesEach (parts.filterMap id) =
      parts.flatMap fun d => d.elim [] Decl.choices := by
    induction parts with
    | nil => rfl
    | cons part parts ih => cases part <;> simpa [Decl.choicesEach] using ih
  refine (expect_ends rfl).last fun _ s hs => ?_
  rwa [choices]

omit hg in
/-- Behind the sign of an operator nothing is left to be told of its left operand. -/
theorem sign_tells {lhs : Expr} (op : Operator) (juxtaposed : op ≠ .application) :
    Tells (fun s => lhs.IsTold items l least s ∧ s.token?.bind Operator.ofToken? = some op) advance
      fun _ => ToldFresh items (l ++ lhs.choices least) := by
  refine Tells.advance fun s hs => (hs.1.alone fun paren => juxtaposed ?_).advance
  rw [paren] at hs
  exact (Option.some.inj hs.2).symm

/-- An operator with its sign and a right operand. -/
theorem right_tells {lhs : Expr} (op : Operator) (f : Expr → Form) (juxtaposed : op ≠ .application)
    (choices : ∀ e, (f e).choices least = lhs.choices least ++ e.choices op.rightMin)
    (ends : ∀ e, (f e).endsInAnnex = e.endsInAnnex) :
    Tells (fun s => lhs.IsTold items l least s ∧ s.token?.bind Operator.ofToken? = some op) (do
      advance
      return f (← infixForm.right g op)) (Form.IsTold items l least) := by
  refine (sign_tells op juxtaposed).bind fun _ => (hg.expr op.rightMin _).fresh.last fun e s hs => ?_
  rw [Form.IsTold, choices, ends, ← List.append_assoc]
  exact hs

/-- A right operand with no sign in front of it. -/
theorem application_tells {lhs : Expr} :
    Tells (fun s => lhs.IsTold items l least s ∧
      s.token?.bind Operator.ofToken? = some .application) (infixForm g lhs .application)
      (Form.IsTold items l least) := by
  refine Tells.given Reading.token? fun t => ?_
  have opens := (hg.expr Operator.application.rightMin
    (l ++ lhs.choices least ++ argument lhs.endsInAnnex t)).opening (t := t) (fun _ => id)
      (hg.spelled.expr _)
  refine Tells.last ((opens.pre fun s hs => ?_).besides (R := fun _ _ => misplaced t = [])
    fun _ _ hs => ?_) fun e s hs => ?_
  · obtain ⟨⟨told, -⟩, rfl⟩ := hs
    exact ⟨(Expr.isTold_iff.1 told).toTold, rfl⟩
  · obtain ⟨⟨-, next⟩, rfl⟩ := hs
    obtain ⟨t, token, op⟩ := Option.bind_eq_some_iff.1 next
    rw [token]
    exact misplaced_of_startsDomain (Operator.startsDomain_of_application op)
  · obtain ⟨⟨told, opening⟩, domain⟩ := hs
    simpa [Form.IsTold, Form.choices, Form.endsInAnnex, opening, domain] using told

/-- A union is told of up to the next token, whatever the number of variants. -/
theorem union_tells {lhs : Expr} :
    Tells (fun s => lhs.IsTold items l least s ∧
      s.token?.bind Operator.ofToken? = some .union) (infixForm g lhs .union)
      (Form.IsTold items l least) := by
  let Variants (es : List Expr) (s : Reading) : Prop := ToldEnd items
    (l ++ Expr.choicesEach least Operator.union.rightMin es ++
      argument (Expr.lastEndsInAnnex es) s.token?) s
  have others : Tells (Variants [lhs]) (many (after (.symbol .union) (infixForm.right g .union)))
      fun es => Variants (lhs :: es) :=
    Tells.many (I := fun es => Variants (lhs :: es)) fun es => Tells.after
      (S := ToldFresh items (l ++ Expr.choicesEach least Operator.union.rightMin (lhs :: es)))
      (fun s hs next => ?_) (hg.expr _ _).fresh (fun e s hs => ?_) fun s hs _ => hs
  · refine Tells.last (others.pre fun s hs => ?_) fun es s hs => hs
    simpa [Variants, Expr.choicesEach, Expr.lastEndsInAnnex] using Expr.isTold_iff.1 hs.1
  · have told : ToldEnd items _ s := hs
    rw [next, argument_eq_nil (by simp), List.append_nil] at told
    exact told.advance
  · change ToldEnd items (l ++ Expr.choicesEach least Operator.union.rightMin (lhs :: es ++ [e]) ++
      argument (Expr.lastEndsInAnnex (lhs :: es ++ [e])) s.token?) s
    rw [Expr.choicesEach_append, Expr.lastEndsInAnnex_append, ← List.append_assoc]
    exact hs

theorem infixForm_tells (lhs : Expr) (op : Operator) :
    Tells (fun s => lhs.IsTold items l least s ∧ s.token?.bind Operator.ofToken? = some op)
      (infixForm g lhs op) (Form.IsTold items l least) := by
  cases op with
  | where_ =>
      refine (sign_tells .where_ nofun).bind fun _ => (whereBody_tells hg).fresh.last fun ds s hs => ?_
      exact Form.isTold hs (by simp [Form.choices]) rfl
  | arrow => exact right_tells hg .arrow (.arrow lhs) nofun (fun _ => rfl) fun _ => rfl
  | injection => exact right_tells hg .injection (.injection lhs) nofun (fun _ => rfl) fun _ => rfl
  | extraction => exact right_tells hg .extraction (.extraction lhs) nofun (fun _ => rfl) fun _ => rfl
  | explicitApplication =>
      refine right_tells hg .explicitApplication (.application lhs · true) nofun (fun e => ?_)
        fun _ => rfl
      rw [Form.choices, if_pos rfl, List.append_nil]
      rfl
  | application => exact application_tells hg
  | union => exact union_tells hg

theorem extend?_tells (lhs : Expr) : Tells (lhs.IsTold items l least) (extend? g least lhs) fun r =>
    r.elim (lhs.IsTold items l least) fun e => e.IsTold items l least := by
  refine Tells.bind (R := fun op s => lhs.IsTold items l least s ∧
    ∀ o ∈ op, s.token?.bind Operator.ofToken? = some o) (Tells.move (fun _ => operator?_run)
      (fun s => s.recorded_noted) fun s hs => ⟨?_, fun o ho => ?_⟩) fun op => ?_
  · rw [Expr.isTold_iff, Reading.token?, s.rest_noted, ← Reading.token?]
    exact (Expr.isTold_iff.1 hs).noted
  · rw [Reading.token?, s.rest_noted]
    exact Reading.ofToken?_of_operator? ho
  · cases op with
    | none => exact Tells.pure fun _ => And.left
    | some op =>
        refine Tells.ite (Tells.pure fun _ => And.left) (Tells.map (R := fun e => e.IsTold items l least)
          ?_ fun _ _ => id)
        refine ((infixForm_tells hg lhs op).pre fun s hs => ⟨hs.1, hs.2 op rfl⟩).bind fun form => ?_
        exact Tells.see (v := id) (fun _ => rfl) fun _ => Tells.pure fun _ => And.left

theorem operand_tells : Tells (Told items l) (operand g least) fun e => e.IsTold items l least :=
  Tells.node (operandForm_tells hg) fun _ _ _ => id

omit hg in
/-- No operator begins with a colon, so a name in front of one is an expression by itself. -/
theorem expr_name (inStep : ∀ {σ : Simulation} {m : Nat}, σ.Nests m g g) {e : Expr} {name : String}
    (run : Grammar.expr g least s = .ok e s') (next : s.token? = some (.ident name))
    (colon : s.tokenAt? 1 = some (.symbol .colon)) : e.form = .ident name := by
  obtain ⟨lhs, s₁, first, rest⟩ := bind_ok.1 run
  obtain ⟨⟨form, place⟩, _, read, done⟩ := bind_ok.1 first
  obtain ⟨rfl, rfl⟩ := pure_ok.1 done
  have read := (located_ok.1 read).1
  have alone : operandForm g least s = .ok (.ident name) s.advance := by
    unfold operandForm
    rw [peek_bind, next]
    rfl
  rw [alone] at read
  cases read
  have last : s.advance.operator? = none := by
    rw [Reading.operator?, s.token?_advance, colon]
    rfl
  cases (grow_ok fun _ => extend?_advances inStep).1 rest with
  | stop => rfl
  | more step _ =>
      rcases extend?_ok.1 step with ⟨-, none, -⟩ | ⟨op, some, -⟩
      · cases none
      · rw [last] at some
        cases some

theorem expr_tells (least : Prec) :
    Tells (Told items l) (Grammar.expr g least) fun e => e.IsTold items l least :=
  (operand_tells hg).bind fun lhs => Tells.grow (extend?_tells hg) lhs

end Expressions

end Grammar

namespace Nested

/-- Forms nested to any depth tell of their choices. -/
theorem telling_upTo : ∀ n, (upTo n).Telling items
  | 0 => {
      spelled := spelled_upTo 0
      groups := groups_upTo 0
      expr _ _ := Tells.unexpected
      tuple _ _ := Tells.unexpected
      isTuple run := nomatch run
      name run := nomatch run }
  | n + 1 => {
      spelled := spelled_upTo (n + 1)
      groups := groups_upTo (n + 1)
      expr least _ := (expr_tells (telling_upTo n) least).post fun _ _ => Expr.isTold_iff.1
      tuple bracket _ := tuple_tells (telling_upTo n) bracket
      isTuple := isTuple_of_tuple
      name := expr_name nests_self }

end Nested

end Mim
