import Mim.Proofs.InStep.Grammar

/-! # Progress

A reading goes in step with itself. So every rule only ever drops tokens from the
front and records more, and how deep forms may be nested makes no difference once it
is deep enough: there is one reader for what is nested that has no bound.
-/

namespace Mim

open Simulation Grammar

variable {α : Type} [Spanned α] {P : Option Token → Prop} {k m n : Nat} {s s' : Reading}

/-- Where the last of some items ends. -/
def Item.endAfter (lastEnd : Nat) (cs : List Item) : Nat := cs.foldl (fun _ i => i.span.stop) lastEnd

theorem Item.endAfter_append (lastEnd : Nat) (cs ds : List Item) :
    endAfter lastEnd (cs ++ ds) = endAfter (endAfter lastEnd cs) ds := List.foldl_append

theorem Item.endAfter_of_getLast? {lastEnd : Nat} {cs : List Item} {j : Item}
    (h : cs.getLast? = some j) : endAfter lastEnd cs = j.span.stop := by
  obtain ⟨init, rfl⟩ := List.getLast?_eq_some_iff.1 h
  rw [endAfter_append]
  rfl

/-- Text that is no lexeme. -/
def Token.isBroken : Token → Bool
  | .error _ => true
  | _ => false

/-- Between two readings no broken text is read and no error is recorded. -/
structure Reading.Sound (s s' : Reading) : Prop where
  rest : s'.rest.countP (·.token.isBroken) = s.rest.countP (·.token.isBroken)
  recorded : s'.recorded.countP Diagnostic.isError = s.recorded.countP Diagnostic.isError

/-- A reading that comes out of another when some items are read. -/
structure Reading.After (cs : List Item) (s s' : Reading) : Prop where
  rest : s.rest = cs ++ s'.rest
  lastEnd : s'.lastEnd = Item.endAfter s.lastEnd cs
  recorded : s.recorded <:+ s'.recorded

namespace Reading.After

variable {s₁ : Reading} {cs ds : List Item}

theorem refl (s : Reading) : After [] s s := ⟨rfl, rfl, List.suffix_refl _⟩

theorem trans (h : After cs s s₁) (h' : After ds s₁ s') : After (cs ++ ds) s s' :=
  ⟨by rw [h.rest, h'.rest, List.append_assoc], by rw [h'.lastEnd, h.lastEnd, Item.endAfter_append],
    h.recorded.trans h'.recorded⟩

theorem advance {i : Item} {rest : List Item} (h : s.rest = i :: rest) : After [i] s s.advance := by
  rw [Reading.advance_eq h]
  exact ⟨h, rfl, List.suffix_refl _⟩

theorem note (rule : TieBreak) (place : Span) : After [] s (s.note rule place) :=
  ⟨(s.rest_note rule place).symm, s.lastEnd_note rule place, s.recorded_note rule place⟩

theorem report (e : ParseError) : After [] s (s.report e) := by
  unfold Reading.report
  split
  · exact refl s
  · exact ⟨rfl, rfl, List.suffix_cons _ _⟩

theorem noted : After [] s s.noted := ⟨s.rest_noted.symm, s.lastEnd_noted, s.recorded_noted⟩

theorem broken_eq (h : After cs s s') : s.rest.countP (·.token.isBroken) =
    cs.countP (·.token.isBroken) + s'.rest.countP (·.token.isBroken) := by
  rw [h.rest, List.countP_append]

theorem errors_le (h : After cs s s') :
    s.recorded.countP Diagnostic.isError ≤ s'.recorded.countP Diagnostic.isError :=
  h.recorded.sublist.countP_le

/-- Nothing goes wrong if nothing does in either part. -/
theorem sound_iff (h : After cs s s₁) (h' : After ds s₁ s') :
    s.Sound s' ↔ s.Sound s₁ ∧ s₁.Sound s' := by
  have broken := h.broken_eq
  have broken' := h'.broken_eq
  have errors := h.errors_le
  have errors' := h'.errors_le
  constructor
  · rintro ⟨rest, recorded⟩
    exact ⟨⟨by omega, by omega⟩, ⟨by omega, by omega⟩⟩
  · rintro ⟨⟨rest, recorded⟩, rest', recorded'⟩
    exact ⟨rest'.trans rest, recorded'.trans recorded⟩

end Reading.After

/-- Readings that are the same and have gone on from `start`. -/
def Simulation.onward (start : Reading) : Simulation where
  move := .id
  rel s u := u = s ∧ ∃ cs, start.After cs s
  marks _ := True
  bare := by rintro s _ ⟨rfl, -⟩; rfl
  span_eq := by rintro s _ ⟨rfl, -⟩; rfl
  spanFrom_eq := by rintro s _ ⟨rfl, -⟩ place; rfl
  marks_span _ _ _ := trivial
  rel_advance := by
    rintro _ s ⟨rfl, cs, after⟩
    refine ⟨rfl, ?_⟩
    cases hs : s.rest with
    | nil => exact ⟨cs, by rwa [Reading.advance, hs]⟩
    | cons i rest => exact ⟨cs ++ [i], after.trans (.advance hs)⟩
  rel_note := by
    rintro s _ ⟨rfl, cs, after⟩ rule place -
    exact ⟨rfl, cs ++ [], after.trans (.note rule place)⟩
  rel_report := by
    rintro s _ ⟨rfl, cs, after⟩ e -
    exact ⟨rfl, cs ++ [], after.trans (.report e)⟩

/-- What reading at least `k` tokens does to a reading. -/
structure Reading.Onward (k : Nat) (s s' : Reading) : Prop where
  after : ∃ cs, s.After cs s'
  length : s'.rest.length + k ≤ s.rest.length

namespace Reading.Onward

theorem rest (h : s.Onward k s') : s'.rest <:+ s.rest :=
  have ⟨cs, after⟩ := h.after
  ⟨cs, after.rest.symm⟩

theorem recorded (h : s.Onward k s') : s.recorded <:+ s'.recorded :=
  have ⟨_, after⟩ := h.after
  after.recorded

theorem trans {j : Nat} {s₁ : Reading} (h : s.Onward j s₁) (h' : s₁.Onward k s') :
    s.Onward (j + k) s' :=
  have ⟨_, after⟩ := h.after
  have ⟨_, after'⟩ := h'.after
  ⟨⟨_, after.trans after'⟩, by have := h.length; have := h'.length; omega⟩

end Reading.Onward

theorem Reading.onward_noted : s.Onward 0 s.noted :=
  ⟨⟨_, .noted⟩, Nat.le_of_eq (congrArg List.length s.rest_noted)⟩

theorem Simulation.InStep.onward {p : Parser α} {a : α}
    (h : (Simulation.onward s).InStep P k (s.rest.length + 1) p p) (hs : P s.token?)
    (run : p s = .ok a s') : s.Onward k s' := by
  have agree := h s s ⟨rfl, [], .refl s⟩ hs (Nat.lt_succ_self _)
  rw [run] at agree
  exact ⟨agree.2.1.2, agree.2.2⟩

theorem Simulation.InStep.onward_error {p : Parser α} {e : ParseError}
    (h : (Simulation.onward s).InStep P k (s.rest.length + 1) p p) (hs : P s.token?)
    (run : p s = .error e s') : s.Onward 0 s' ∧ s'.Blames (fun _ => True) e := by
  have agree := h s s ⟨rfl, [], .refl s⟩ hs (Nat.lt_succ_self _)
  rw [run] at agree
  exact ⟨⟨agree.2.1.2, agree.2.2.1⟩, agree.2.2.2⟩

/-- Steps in step on the same readings are the same. -/
theorem Simulation.InStep.run_eq {p q : Parser α} (hs : P s.token?)
    (h : (Simulation.onward s).InStep P k (s.rest.length + 1) p q) : p s = q s := by
  have agree := h s s ⟨rfl, [], .refl s⟩ hs (Nat.lt_succ_self _)
  revert agree
  cases p s <;> cases q s <;> simp only [Agree, false_implies]
  · rintro ⟨rfl, ⟨rfl, -⟩, -⟩
    exact congrArg (EStateM.Result.ok · _) (Spanned.respan_id _).symm
  · rintro ⟨rfl, ⟨rfl, -⟩, -⟩
    rfl

theorem Grammar.nests_self {σ : Simulation} :
    ∀ {m n : Nat}, σ.Nests m (Nested.upTo n) (Nested.upTo n)
  | _, 0 => ⟨fun _ => InStep.unexpected _, fun _ => InStep.unexpected _⟩
  | 0, _ + 1 => nests_upTo (Nat.zero_le _) (Nat.zero_le _)
  | _ + 1, _ + 1 => nests_succ nests_self

/-- How to read what is nested, at any depth. -/
def Nested.full : Nested where
  expr least s := s.nested.expr least s
  tuple bracket s := s.nested.tuple bracket s

namespace Nested

theorem nests_full {σ : Simulation} (h : m ≤ n) : σ.Nests m full (upTo n) where
  expr least s u hr hs hm :=
    (nests_upTo (Nat.le_refl _) (by omega)).expr least s u hr hs (Nat.lt_succ_self _)
  tuple bracket s u hr hs hm :=
    (nests_upTo (Nat.le_refl _) (by omega)).tuple bracket s u hr hs (Nat.lt_succ_self _)

/-- What is nested goes in step with itself at any depth. -/
theorem nests_full_self {σ : Simulation} : σ.Nests n full full where
  expr least s u hr hs hm := by
    change σ.Agree _ _ ((upTo (s.rest.length + 1)).expr least s) ((upTo (u.rest.length + 1)).expr least u)
    rw [length_eq hr]
    exact nests_self.expr least s u hr hs hm
  tuple bracket s u hr hs hm := by
    change σ.Agree _ _ ((upTo (s.rest.length + 1)).tuple bracket s)
      ((upTo (u.rest.length + 1)).tuple bracket u)
    rw [length_eq hr]
    exact nests_self.tuple bracket s u hr hs hm

theorem full_expr (least : Prec) : full.expr least = Grammar.expr full least := by
  funext s
  exact (InStep.run_eq (P := Anywhere) trivial (expr_inStep (nests_full (Nat.le_refl _)) least)).symm

theorem full_tuple {bracket : Bracket} (h : s.token? = some bracket.open_) :
    full.tuple bracket s = Grammar.tuple full bracket s :=
  (InStep.run_eq h (tuple_inStep (nests_full (Nat.le_refl _)) bracket)).symm

/-- A file is read with no bound on how deep forms are nested. -/
theorem file_full : Grammar.file full s = Grammar.file s.nested s :=
  InStep.run_eq (P := Anywhere) trivial (file_inStep (nests_full (Nat.le_succ _)))

end Nested

/-- Each operator takes a token at least. -/
theorem Grammar.extend?_onward {g : Nested} (hg : ∀ {σ : Simulation} {m : Nat}, σ.Nests m g g)
    {least : Prec} {lhs e : Expr} (run : extend? g least lhs s = .ok (some e) s') :
    s.Onward 1 s' := by
  rcases extend?_ok.1 run with ⟨-, none, -⟩ | ⟨op, hop, -, e', -, run⟩
  · cases none
  · have ahead : s.noted.token?.bind Operator.ofToken? = some op := by
      rw [Reading.token?, s.rest_noted]
      exact Reading.ofToken?_of_operator? hop
    have inStep := infixExpr_inStep (σ := .onward s.noted) (m := s.noted.rest.length + 1) hg lhs op
    rw [show respan (Simulation.onward s.noted).move lhs = lhs from Spanned.respan_id lhs] at inStep
    simpa using Reading.onward_noted.trans (inStep.onward ahead run)

end Mim
