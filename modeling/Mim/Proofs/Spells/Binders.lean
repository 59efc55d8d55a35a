import Mim.Proofs.Spells.Names

/-! # Binders are read as they are written -/

namespace Mim

open Simulation (Anywhere)
open Grammar Token Mode Layout

variable {m : Mode} {P : Option Token → Prop} {l₀ : List Token}

/-- What is nested is written as it is read, and read again at any depth. -/
structure Nested.Spelled (m : Mode) (g : Nested) : Prop where
  inStep {σ : Simulation} {n : Nat} : σ.Nests n g g
  head {least : Prec} {s s' : Reading} {e : Expr} :
    g.expr least s = .ok e s' → s.token?.any startsOperand
  expr (least : Prec) :
    Spells m Anywhere .phrase [] (g.expr least) (full.expr least) fun e => e.layout.tokens
  tuple (bracket : Bracket) : Spells m (· = some bracket.open_) .phrase []
    (g.tuple bracket) (full.tuple bracket) fun b => b.layout.tokens

namespace Grammar

open Nested (full)

section Binders

variable {g : Nested} (hg : g.Spelled m)
include hg

theorem expr_spells (least : Prec) :
    Spells m P .phrase [] (g.expr least) (full.expr least) fun e => e.layout.tokens :=
  (hg.expr least).anywhere

theorem anyExpr_spells :
    Spells m P .phrase [] (anyExpr g) (anyExpr full) fun e => e.layout.tokens :=
  expr_spells hg .bottom

theorem typed_spells : Spells m P .phrase [] (typed g) (typed full) fun b => b.layout.tokens := by
  refine SpellsIf.node (fun p => Binder.typed p.1.1 p.1.2 p.2) ?_
    (fun _ => rfl) (fun _ => rfl) (fun _ => rfl) (fun _ _ => rfl)
  refine identifier_spells.bind fun _ _ same => SpellsIf.expect rfl ?_
  refine (anyExpr_spells hg).bind fun _ _ same' => ?_
  exact SpellsIf.pure (Same.prod_iff.2 ⟨same, same'⟩) (by simp [Binder.layout])

/-- A name with a type is more than one token. -/
theorem typed_length {s s' : Reading} {b : Binder} (run : typed g s = .ok b s') :
    s.rest.length ≠ s'.rest.length + 1 := by
  obtain ⟨r, s₁, first, done⟩ := bind_ok.1 run
  obtain ⟨-, rfl⟩ := pure_ok.1 done
  obtain ⟨i, s₂, name, rest⟩ := bind_ok.1 (located_ok.1 first).1
  obtain ⟨_, s₃, colon, rest⟩ := bind_ok.1 rest
  obtain ⟨ht, rfl⟩ := expect_ok.1 colon
  obtain ⟨ty, s₄, type_, done⟩ := bind_ok.1 rest
  obtain ⟨-, rfl⟩ := pure_ok.1 done
  have name := identifier_length name
  have colon := Reading.length_advance ht
  have type_ := (Simulation.InStep.onward (P := Anywhere) (hg.inStep.expr .bottom) trivial type_).length
  omega

theorem group_spells : Spells m P .phrase [] (group g) (group full) fun b => b.layout.tokens := by
  refine SpellsIf.node (fun p => Binder.group p.1.1 p.1.2 p.2) ?_
    (fun _ => rfl) (fun _ => rfl) (fun _ => rfl) (fun _ _ => rfl)
  have names := SpellsIf.many (m := m) Looks.follow identifier?_advances identifier?_advances
    identifier?_spells
  refine names.anywhere.append fun _ _ same => SpellsIf.expect rfl ?_
  refine (anyExpr_spells hg).bind fun _ _ same' => ?_
  refine SpellsIf.pure (Same.prod_iff.2 ⟨same, same'⟩) ?_
  have gap : tokens [.gap] = [] := rfl
  simp [Binder.layout, tokens_join, gap, Token.intercalate_nil, List.flatMap_def]
  rfl

omit hg in
theorem binderName_spells :
    Spells m P .phrase [] (do return Binder.name (← identifier)) (do return .name (← identifier))
      fun b => b.layout.tokens :=
  identifier_spells.bind fun _ _ same => SpellsIf.pure (same.map fun _ => rfl) rfl

theorem pattern_spells : Spells m P .phrase [] (pattern g) (pattern full) fun b => b.layout.tokens := by
  refine SpellsIf.peek fun t _ => ?_
  split
  · exact hg.tuple .round
  · refine SpellsIf.colonFollows (fun b => ?_) (.inl fun s b s' run => typed_length hg run)
    cases b with
    | true => exact typed_spells hg
    | false => exact binderName_spells
  · exact SpellsIf.unexpected _

theorem battern_spells (least : Prec) :
    Spells m P .phrase [] (battern g least) (battern full least) fun b => b.layout.tokens := by
  have type_ : ∀ {P}, Spells m P .phrase [] (do return Binder.type (← g.expr least))
      (do return .type (← full.expr least)) fun b => b.layout.tokens :=
    (expr_spells hg least).bind fun _ _ same => SpellsIf.pure (same.map fun _ => rfl) rfl
  refine SpellsIf.peek fun t _ => ?_
  split
  · exact hg.tuple .square
  · refine SpellsIf.colonFollows (fun b => ?_) (.inl fun s b s' run => typed_length hg run)
    cases b with
    | true => exact typed_spells hg
    | false => exact type_
  · exact type_

omit hg in
/-- Whether an element is a group is decided by the names ahead. -/
theorem ifGroup_spells {two two' one one' : Parser Binder}
    (group : Spells m P .phrase [] two two' fun b => b.layout.tokens)
    (other : Spells m P .phrase [] one one' fun b => b.layout.tokens) :
    SpellsIf FollowElement m P .phrase [] (do if ← groupAhead then two else one)
      (do if ← groupAhead then two' else one') fun b => b.layout.tokens := by
  intro s a s' hs run
  have decided : Spells m P .phrase [] (if isGroupAhead s.tokens then two else one)
      (if isGroupAhead s.tokens then two' else one') fun b => b.layout.tokens :=
    SpellsIf.ite group other
  rw [bind_of_ok groupAhead_run] at run
  refine (decided.follow FollowElement.follow s a s' hs run).of_seen
    fun {u xs ys us} hold hs hu follow _ => ?_
  rw [bind_of_ok groupAhead_run]
  have names : isGroupAhead s.tokens = isGroupAhead u.tokens := by
    rw [isGroupAhead_eq, isGroupAhead_eq, hs, hu, hold.1.names follow.2]
  change (ite (isGroupAhead u.tokens = true) _ _ : Parser Binder) u = _
  exact names ▸ rfl

theorem element_spells (bracket : Bracket) :
    SpellsIf FollowElement m P .phrase [] (element g bracket) (element full bracket)
      fun b => b.layout.tokens := by
  refine ifGroup_spells (SpellsIf.ite (group_spells hg) ?_) ?_
  · exact SpellsIf.span fun _ _ _ => SpellsIf.note (group_spells hg)
  · cases bracket with
    | round => exact pattern_spells hg
    | square | curly => exact battern_spells hg .bottom

omit hg in
theorem element_length (hg : ∀ {σ : Simulation} {n : Nat}, σ.Nests n g g) (bracket : Bracket)
    ⦃s : Reading⦄ ⦃b : Binder⦄ ⦃s' : Reading⦄ (run : element g bracket s = .ok b s') :
    s'.rest.length ≤ s.rest.length :=
  (Simulation.InStep.onward (element_inStep (P := Anywhere) hg bracket) trivial run).rest.length_le

/-- A tuple is closed again. -/
theorem tuple_spells (bracket : Bracket) :
    Spells m (· = some bracket.open_) .phrase [] (tuple g bracket) (tuple full bracket)
      fun b => b.layout.tokens := by
  refine SpellsIf.node (fun p => Binder.tuple bracket p.1 p.2) ?_
    (fun _ => rfl) (fun _ => rfl) (fun r => Binder.respan_tuple ..) (fun _ _ => rfl)
  have lead : Grade.Leads bracket.open_ .closed .phrase := by
    cases bracket with
    | round => exact Grade.leads_paren
    | square | curly => exact Grade.leads_plain rfl
  have shut : bracket.close.isShut := by cases bracket <;> rfl
  refine SpellsIf.advance_with lead ?_
  refine (SpellsIf.listed shut (element_length hg.inStep bracket)
    (element_length Nested.nests_full_self bracket)
    (element_spells hg bracket)).shift fun elements => ?_
  rw [Binder.layout, List.cons_append, tokens_sign, tokens_append, tokens_commas,
    Binder.layouts_eq, List.map_map]
  cases bracket <;> rfl

theorem binder_spells (annotated : Bool) : Spells m P .phrase [] (binder g annotated)
    (binder full annotated) fun b => b.layout.tokens := by
  refine SpellsIf.peek fun t _ => ?_
  split
  · exact pattern_spells hg
  · exact battern_spells hg .pi
  · refine SpellsIf.span fun _ _ _ => SpellsIf.note ?_
    refine SpellsIf.ite (pattern_spells hg) (SpellsIf.colonFollows (fun b => ?_)
      (.inr (SpellsIf.note_left binderName_spells)))
    exact SpellsIf.ite (SpellsIf.note binderName_spells) binderName_spells
  · refine SpellsIf.ite ((expr_spells hg .pi).bind fun _ _ same => ?_) (SpellsIf.unexpected _)
    exact SpellsIf.pure (same.map fun _ => rfl) rfl
  · exact SpellsIf.unexpected _

theorem domain_spells : Spells m P .phrase [] (domain g) (domain full) fun b => b.layout.tokens := by
  refine SpellsIf.peek fun t _ => ?_
  split
  · exact pattern_spells hg
  · exact battern_spells hg .pi
  · exact hg.tuple .curly
  · refine SpellsIf.colonFollows (fun b => SpellsIf.ite ?_ binderName_spells)
      (.inr (SpellsIf.noteHere_left binderName_spells))
    exact SpellsIf.span fun _ _ _ => SpellsIf.note binderName_spells
  · refine SpellsIf.ite ((expr_spells hg .union).bind fun _ _ same => ?_) (SpellsIf.unexpected _)
    exact SpellsIf.pure (same.map fun _ => rfl) rfl
  · exact SpellsIf.unexpected _

theorem piDomain_spells :
    Spells m P .phrase [] (piDomain g) (piDomain full) fun b => b.layout.tokens :=
  SpellsIf.sees (hg.tuple .curly) (battern_spells hg .pi)

end Binders

end Grammar

end Mim
