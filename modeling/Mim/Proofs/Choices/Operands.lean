import Mim.Proofs.Choices.Decls

/-! # A clean run tells of the choices in an expression

Behind an operand an argument in parentheses may follow an annex, which is told of before it is
known what is made of the two. So what is told of an expression is told up to the next token.
-/

namespace Mim

open Grammar
open Reading (Told ToldFresh ToldEnd)
open TieBreak (argument misplaced argument_eq_nil misplaced_of_startsDomain InPlace inPlace_append)
open Token (startsDomain)

variable {items : List Item} {l : List TieBreak} {s s' : Reading} {least : Prec}

/-- What has been told of a form that has just been read, up to the next token. -/
def Form.IsTold (items : List Item) (l : List TieBreak) (least : Prec) (form : Form) (s : Reading) :
    Prop :=
  ToldEnd items (l ++ form.choices least ++ argument form.endsInAnnex s.token?) s

/-- A form that does not end in an annex. -/
theorem Form.isTold {form : Form} {l' : List TieBreak} (h : ToldEnd items l' s)
    (told : l' = l ++ form.choices least) (no : form.endsInAnnex = false) :
    form.IsTold items l least s := by
  rw [Form.IsTold, no, ← told]
  simpa [argument] using h

section Lists

theorem Expr.choicesEach_eq (least : Prec) (es : List Expr) :
    Expr.choicesEach least least es = es.flatMap (Expr.choices least) := by
  induction es with
  | nil => rfl
  | cons e es ih => rw [Expr.choicesEach, ih, List.flatMap_cons]

theorem Arm.choicesEach_eq (arms : List Arm) :
    Arm.choicesEach arms = arms.flatMap fun a => Arm.choicesEach [a] := by
  induction arms with
  | nil => rfl
  | cons a arms ih =>
      rw [List.flatMap_cons, ← ih]
      cases a
      simp [Arm.choicesEach]

theorem Arm.choicesEach_append (arms arms' : List Arm) :
    Arm.choicesEach (arms ++ arms') = Arm.choicesEach arms ++ Arm.choicesEach arms' := by
  rw [Arm.choicesEach_eq, List.flatMap_append, ← Arm.choicesEach_eq, ← Arm.choicesEach_eq]

theorem Decl.choicesEach_eq (ds : List Decl) : Decl.choicesEach ds = ds.flatMap Decl.choices := by
  induction ds with
  | nil => rfl
  | cons d ds ih => rw [Decl.choicesEach, ih, List.flatMap_cons]

end Lists

section Matches

/-- What has been told of the arms read behind `with`. -/
def ArmsTold (items : List Item) (l : List TieBreak) : List Arm → Reading → Prop
  | [], s => ToldEnd items l s ∧ ∃ i, i :: s.rest <:+ items ∧ i.token = .keyword .with_
  | a :: arms, s =>
    ToldEnd items (l ++ misplaced (Arm.next (a :: arms)) ++ Arm.choicesEach (a :: arms)) s

theorem ArmsTold.toldEnd {arms : List Arm} (h : ArmsTold items l arms s) :
    ToldEnd items (l ++ misplaced (Arm.next arms) ++ Arm.choicesEach arms) s := by
  cases arms with
  | nil => simpa [Arm.next, misplaced, Arm.choicesEach] using h.1
  | cons => exact h

/-- Where bars keep declarations apart from `with`, none is out of place behind one. -/
theorem inPlace_behind_bar {i : Item} (bars : Token.Unbarred (items.map Item.token))
    (within : i :: s.rest <:+ items) (token : i.token = .keyword .with_)
    (next : s.token? = some (.symbol .pipe)) : InPlace (misplaced s.advance.token?) := by
  obtain ⟨before, whole⟩ := within
  obtain ⟨j, rest, split, bar⟩ := Reading.token?_eq_some.1 next
  rw [Reading.advance_eq split]
  cases rest with
  | nil => simp [Reading.token?, misplaced, InPlace]
  | cons k rest =>
      have apart : k.token.startsDeclaration = false := by
        refine bars _ ⟨before.map Item.token, rest.map Item.token, ?_⟩
        rw [← whole, split]
        simp [token, bar]
      simp [Reading.token?, misplaced, InPlace, apart]

end Matches

namespace Grammar

variable {g : Nested} (hg : g.Telling items)
include hg

section Operands

/-- A literal is read together with the colon after it, and only then is that told of. -/
theorem literal_tells (value : Literal) :
    Tells (fun s => Told items l s ∧ s.token? = some (.literal value)) (literal g least value)
      (Form.IsTold items l least) := by
  refine Tells.see (fun _ => rfl) fun place => Tells.bind (R := fun _ s => ∃ t, Told items l t ∧
    t.token? = some (.literal value) ∧ t.span = place ∧ s = t.advance)
    (Tells.advance fun s hs => ⟨s, hs.1.1, hs.1.2, hs.2, rfl⟩) fun _ => ?_
  have type_ (noted : List TieBreak) (e : noted = if .ascription < least then [.typeToLiteral] else []) :
      Tells (ToldFresh items (l ++ noted)) (do return .ascribed value place (← anyExpr g))
        (Form.IsTold items l least) :=
    (anyExpr_tells hg).fresh.last fun ty s hs => Form.isTold hs (by simp [Form.choices, e]) rfl
  refine Tells.accept (S := fun s => ∃ t, Told items l t ∧ t.token? = some (.literal value) ∧
    t.span = place ∧ s = t.advance.advance) ?_ ?_ ?_
  · rintro _ ⟨t, told, next, span, rfl⟩ -
    exact ⟨t, told, next, span, rfl⟩
  · rw [if_pos rfl]
    split
    · next strong =>
        refine Tells.bind (Tells.note ?_) fun _ => type_ [.typeToLiteral] (if_pos strong).symm
        rintro _ ⟨t, told, next, rfl, rfl⟩
        exact told.literal next
    · next weak =>
        refine (type_ [] (if_neg weak).symm).pre ?_
        rintro _ ⟨t, told, next, -, rfl⟩
        simpa using told.advance.advance
  · refine Tells.pure ?_
    rintro _ ⟨⟨t, told, next, -, rfl⟩, -⟩
    exact Form.isTold (told.close next rfl) (List.append_nil l).symm rfl

omit hg in
/-- A parenthesis behind an annex is told of as soon as the annex has been read. -/
theorem annexOperand_tells (path : AnnexPath) :
    Tells (fun s => Told items l s ∧ s.token? = some (.annex path)) (annexOperand path)
      (Form.IsTold items l least) := by
  refine Tells.bind (R := fun _ s => ∃ t, Told items l t ∧ t.token? = some (.annex path) ∧
    s = t.advance) (Tells.advance fun s hs => ⟨s, hs.1, hs.2, rfl⟩) fun _ => ?_
  refine Tells.sees (Tells.see (fun _ => rfl) fun place => Tells.bind
    (R := fun _ => Form.IsTold items l least (.annex path)) (Tells.note ?_) fun _ =>
      Tells.pure fun _ => id) (Tells.pure ?_)
  · rintro _ ⟨⟨⟨t, told, next, rfl⟩, paren⟩, rfl⟩
    have ended := told.annex next paren
    rw [Form.IsTold, Reading.token?, Reading.rest_note, ← Reading.token?, paren]
    simpa [Form.choices, Form.endsInAnnex, argument] using ended
  · rintro _ ⟨⟨t, told, next, rfl⟩, paren⟩
    rw [Form.IsTold, argument_eq_nil paren]
    simpa [Form.choices] using told.close next rfl

omit hg in
/-- A semicolon that is not there changes nothing. -/
theorem semicolon_tells {α : Type} {a : α} {Q : α → Reading → Prop} (h : ∀ s, Told items l s → Q a s) :
    Tells (ToldFresh items l) (do discard (accept (.symbol .semicolon)); return a) Q := by
  rw [discard_eq_bind, bind_assoc]
  refine Tells.accept (fun s hs _ => hs.advance.toTold) (Tells.pure h) (Tells.pure fun s hs => ?_)
  exact h s hs.1.toTold

theorem blockDeclaration?_tells (l : List TieBreak) : Tells (Told items l) (blockDeclaration? g)
    fun r => Told items (l ++ r.elim [] Decl.choices) := by
  refine Tells.peek fun next => Tells.pre (P := Told items l) ?_ fun _ => And.left
  have none_ : Tells (Told items l) (pure none) fun r : Option Decl =>
      Told items (l ++ r.elim [] Decl.choices) := Tells.pure fun s hs => by simpa using hs
  split
  · exact Tells.ite ((declaration_tells hg).bind fun d => semicolon_tells fun _ => id) none_
  · exact none_

theorem block_tells : Tells (Told items l) (block g) (Form.IsTold items l least) := by
  refine (Tells.each (blockDeclaration?_tells hg)).bind fun ds => ?_
  refine (anyExpr_tells hg).last fun body s hs => Form.isTold hs ?_ rfl
  rw [Form.choices, Decl.choicesEach_eq, List.append_assoc]

omit hg in
theorem isTuple_of_tuple {bracket : Bracket} {b : Binder} (run : tuple g bracket s = .ok b s') :
    b.isTuple := by
  obtain ⟨_, _, -, done⟩ := bind_ok.1 run
  obtain ⟨rfl, -⟩ := pure_ok.1 done
  rfl

/-- A tuple of binders where an operand may stand. -/
theorem operandTuple_tells (bracket : Bracket) :
    Tells (fun s => Told items l s ∧ s.token? = some bracket.open_) (tuple g bracket) fun b =>
      ToldEnd items (l ++ b.choices .pi) :=
  ((tuple_tells hg bracket).besides fun run _ _ => isTuple_of_tuple run).post fun b s hs => by
    rw [b.choices_of_isTuple hs.2]
    exact hs.1

theorem bracketed_tells : Tells (fun s => Told items l s ∧ s.token? = some (.symbol .leftBracket))
    (bracketed g) (Form.IsTold items l least) := by
  refine (operandTuple_tells hg .square).bind fun tuple =>
    (afterExpr_tells hg (by decide)).bind fun codomain => ?_
  cases codomain with
  | some codomain => exact Tells.pure fun s hs => Form.isTold hs (by simp [Form.choices]) rfl
  | none =>
      have named : Tells (ToldEnd items (l ++ tuple.choices .pi)) (after (.keyword .as_) name)
          fun _ => ToldEnd items (l ++ tuple.choices .pi) :=
        Tells.after (fun s hs _ => hs.advance) name_tells.fresh (fun _ _ => id) fun _ hs _ => hs
      refine (named.pre fun s hs => ?_).last fun label s hs => Form.isTold hs rfl rfl
      simpa [Expr.choices?] using hs

theorem implicitPi_tells : Tells (fun s => Told items l s ∧ s.token? = some (.symbol .leftBrace))
    (implicitPi g) (Form.IsTold items l least) :=
  (operandTuple_tells hg .curly).bind fun tuple => expect_tells.behind.bind fun _ =>
    (weakExpr_tells hg .arrow (by decide)).fresh.last fun codomain s hs =>
      Form.isTold hs.1 (by simp [Form.choices, Expr.choices?]) rfl

theorem cnType_tells : Tells (Told items l) (cnType g) (Form.IsTold items l least) :=
  expect_tells.bind fun _ => (piDomain_tells hg).fresh.last fun domain s hs =>
    Form.isTold hs (by simp [Form.choices, Expr.choices?]) rfl

theorem fnType_tells : Tells (Told items l) (fnType g) (Form.IsTold items l least) :=
  expect_tells.bind fun _ => (piDomain_tells hg).fresh.bind fun domain =>
    (afterExpr_tells hg (by decide)).last fun codomain s hs =>
      Form.isTold hs (by simp [Form.choices]) rfl

theorem lm_tells : Tells (Told items l) (lm g) (Form.IsTold items l least) := by
  refine expect_tells.bind fun _ => Tells.bind (Row.many1_tells (domain?_advances hg.groups.inStep)
    ((domain_tells hg).post fun b s hs => hs.toToldFresh) (domain?_goes hg)) fun domains => ?_
  refine (codomain_tells hg (c := fun colon => l ++ Binder.choicesEach colon domains)).bind
    fun codomain => expect_tells.fresh.bind fun _ => ?_
  exact (anyExpr_tells hg).fresh.last fun body s hs => Form.isTold hs (by simp [Form.choices]) rfl

theorem cn_tells : Tells (Told items l) (cn g) (Form.IsTold items l least) := by
  have first : Tells (ToldFresh items l) (pattern g) fun b s =>
      ToldFresh items (l ++ Row.domains.told s.token? b) s := by
    refine (pattern_tells hg .union).fresh.post fun b s hs => ?_
    change ToldFresh items (l ++ (b.choices .union ++ b.atEnd s.token?)) s
    rw [hs.2, List.append_nil]
    exact hs.1.toToldFresh
  refine expect_tells.bind fun _ => Tells.bind (Row.many1_tells (pattern?_advances hg.groups.inStep)
    first (pattern?_goes hg)) fun domains => ?_
  refine Tells.bind (R := fun _ => ToldFresh items (l ++ Binder.choicesEach false domains))
    (Tells.expect fun s hs next => ?_) fun _ => (anyExpr_tells hg).fresh.last fun body s hs => ?_
  · rw [next] at hs
    exact hs.advance
  · exact Form.isTold hs (by simp [Form.choices, Expr.choices?]) rfl

theorem insert_tells : Tells (Told items l) (insert g) (Form.IsTold items l least) := by
  refine expect_tells.bind fun _ => expect_tells.fresh.bind fun _ => ?_
  refine (anyExpr_tells hg).fresh.bind fun a => expect_tells.behind.bind fun _ => ?_
  refine (anyExpr_tells hg).fresh.bind fun b => expect_tells.behind.bind fun _ => ?_
  refine (anyExpr_tells hg).fresh.bind fun c => ?_
  exact (expect_ends rfl).behind.last fun _ s hs => Form.isTold hs (by simp [Form.choices]) rfl

theorem ret_tells : Tells (Told items l) (ret g) (Form.IsTold items l least) := by
  refine expect_tells.bind fun _ => (binder_tells hg true).bind fun b => ?_
  refine (bound_tells (t := .symbol .assign) nofun nofun).bind fun _ => ?_
  refine (anyExpr_tells hg).fresh.bind fun callee => expect_tells.behind.bind fun _ => ?_
  refine (anyExpr_tells hg).fresh.bind fun argument => expect_tells.behind.bind fun _ => ?_
  exact (anyExpr_tells hg).fresh.last fun body s hs => Form.isTold hs (by simp [Form.choices]) rfl

theorem uniq_tells : Tells (Told items l) (uniq g) (Form.IsTold items l least) :=
  expect_tells.bind fun _ => (anyExpr_tells hg).fresh.bind fun _ =>
    (expect_ends rfl).behind.last fun _ _ hs => Form.isTold hs rfl rfl

theorem exprs_tell {close : Token} : Tells (ToldFresh items l) (commaList close (anyExpr g)) fun es =>
    ToldFresh items (l ++ Expr.choicesEach .bottom .bottom es) := by
  refine (Tells.list fun l => (anyExpr_tells hg).fresh.post fun e s hs => hs.toToldFresh).post ?_
  intro es s hs
  rwa [Expr.choicesEach_eq]

theorem array_tells : Tells (Told items l) (array g) (Form.IsTold items l least) := by
  refine expect_tells.bind fun _ => (anyExpr_tells hg).fresh.bind fun first => ?_
  refine Tells.bind (R := fun others => ToldFresh items
    (l ++ Expr.choicesEach .bottom .bottom (first :: others.getD []))) ?_ fun others => ?_
  · refine Tells.after (fun s hs _ => hs.advance) (exprs_tell hg) (fun es s hs => ?_) fun s hs _ => ?_
    · simpa [Expr.choicesEach] using hs
    · simpa [Expr.choicesEach] using hs.toToldFresh
  · refine expect_tells.fresh.bind fun _ => (anyExpr_tells hg).fresh.bind fun element => ?_
    exact (expect_ends rfl).behind.last fun _ s hs => Form.isTold hs (by simp [Form.choices]) rfl

theorem pack_tells : Tells (Told items l) (pack g) (Form.IsTold items l least) := by
  refine expect_tells.bind fun _ => (anyExpr_tells hg).fresh.bind fun shape => ?_
  refine expect_tells.behind.bind fun _ => (anyExpr_tells hg).fresh.bind fun body => ?_
  exact (expect_ends rfl).behind.last fun _ s hs => Form.isTold hs (by simp [Form.choices]) rfl

theorem parenthesized_tells : Tells (Told items l) (parenthesized g) (Form.IsTold items l least) :=
  expect_tells.bind fun _ => (exprs_tell hg).bind fun _ =>
    (expect_ends rfl).fresh.last fun _ _ hs => Form.isTold hs rfl rfl

/-- An arm begins with the next token. -/
theorem arm_tells (t : Option Token) : Tells (fun s => ToldFresh items l s ∧ s.token? = t) (arm g)
    fun a s => ToldEnd items (l ++ Arm.choicesEach [a]) s ∧ a.binder.layout.opening = t := by
  refine Tells.node (R := fun p s => ToldEnd items (l ++ Arm.choicesEach [⟨p.1, p.2, .zero⟩]) s ∧
    p.1.layout.opening = t) ?_ fun _ _ _ => id
  refine Tells.bind ((binder_tells hg true).opening (fun _ hs => hs.toTold)
    (binder_spells hg.spelled true)) fun b => Tells.bind (R := fun _ s =>
      ToldFresh items (l ++ b.asPattern ++ b.choices .pi) s ∧ b.layout.opening = t)
      (Tells.expect fun s hs next => ?_) fun _ => ?_
  · obtain ⟨told, opening⟩ := hs
    rw [next, b.atEnd_eq_nil (by simp) (by simp), List.append_nil] at told
    exact ⟨told.advance, opening⟩
  · refine Tells.last (((anyExpr_tells hg).fresh.pre fun _ => And.left).besides
      (R := fun _ _ => b.layout.opening = t) fun _ _ hs => hs.2) fun body s hs => ⟨?_, hs.2⟩
    simpa [Arm.choicesEach] using hs.1

/-- The first arm behind `with`, where a domain begins. -/
theorem firstArm?_tells :
    Tells (ArmsTold items l []) (firstArm? g) fun r => ArmsTold items l r.toList := by
  refine Tells.peek fun next => ?_
  cases next with
  | none => exact Tells.pure fun s hs => hs.1
  | some t =>
      change Tells _ (if startsArm t then some <$> arm g else pure none) _
      split
      · next begins =>
          have domain : misplaced (some t) = [] :=
            misplaced_of_startsDomain (Bool.and_eq_true_iff.1 begins).1
          refine ((arm_tells hg (some t)).pre fun s hs => ⟨hs.1.1.toToldFresh, hs.2⟩).map
            fun a s hs => ?_
          change ToldEnd items (l ++ misplaced a.binder.layout.opening ++ Arm.choicesEach [a]) s
          rw [hs.2, domain, List.append_nil]
          exact hs.1
      · exact Tells.pure fun s hs => hs.1

/-- An arm behind a bar. Where it is the first, the bar keeps it apart from `with`. -/
theorem barredArm_tells : ∀ arms : List Arm, Tells (ArmsTold items l arms)
    (after (.symbol .pipe) (arm g)) fun r => r.elim (ArmsTold items l arms) fun a =>
      ArmsTold items l (arms ++ [a])
  | [] => by
      refine Tells.given (fun s => s.advance.token?) fun t => Tells.after
        (S := fun s => (ToldFresh items l s ∧ s.token? = t) ∧
          (Token.Unbarred (items.map Item.token) → InPlace (misplaced t)))
        (fun s hs next => ⟨⟨hs.1.1.advance, hs.2⟩, fun bars => ?_⟩)
        (((arm_tells hg t).pre fun _ => And.left).besides fun _ _ hs => hs.2)
        (fun a s hs => ?_) fun s hs _ => hs.1
      · obtain ⟨⟨-, i, within, token⟩, rfl⟩ := hs
        exact inPlace_behind_bar bars within token next
      · obtain ⟨⟨told, opening⟩, placed⟩ := hs
        change ToldEnd items (l ++ misplaced a.binder.layout.opening ++ Arm.choicesEach [a]) s
        rw [opening]
        refine told.congr (by simp) fun bars inPlace => ?_
        simp only [inPlace_append] at inPlace ⊢
        exact ⟨⟨inPlace.1, placed bars⟩, inPlace.2⟩
  | a :: arms => by
      refine Tells.after (S := ToldFresh items (l ++ misplaced (Arm.next (a :: arms)) ++
        Arm.choicesEach (a :: arms))) (fun s hs _ => hs.advance)
        (Tells.given Reading.token? fun t => (arm_tells hg t).post fun _ _ => And.left)
        (fun b s hs => ?_) fun s hs _ => hs
      change ToldEnd items (l ++ misplaced (Arm.next (a :: arms)) ++
        Arm.choicesEach (a :: arms ++ [b])) s
      rwa [Arm.choicesEach_append, ← List.append_assoc]

/-- Of the arms of a match, the first is behind `with` or behind a bar. -/
theorem match_tells : Tells (Told items l) (match_ g) (Form.IsTold items l least) := by
  refine expect_tells.bind fun _ => (anyExpr_tells hg).fresh.bind fun scrutinee => ?_
  refine Tells.bind (R := fun _ => ArmsTold items (l ++ scrutinee.choices .bottom) [])
    (Tells.expect fun s hs next => ?_) fun _ => (firstArm?_tells hg).bind fun first => ?_
  · obtain ⟨i, rest, split, token⟩ := Reading.token?_eq_some.1 next
    refine ⟨hs.close next rfl, i, ?_, token⟩
    rw [Reading.advance_eq split, ← split]
    exact hs.within
  · have others := Tells.many (I := fun others => ArmsTold items (l ++ scrutinee.choices .bottom)
      (first.toList ++ others)) fun others => by
        simpa using barredArm_tells hg (first.toList ++ others)
    refine Tells.last (others.pre fun s hs => by simpa using hs) fun others s hs => ?_
    refine Form.isTold hs.toldEnd ?_ rfl
    simp [Form.choices]

theorem operandForm_tells : Tells (Told items l) (operandForm g least) (Form.IsTold items l least) := by
  have closed {form : Form} {t : Token} (ht : t.ends) (told : form.choices least = [])
      (no : form.endsInAnnex = false) : Tells (fun s => Told items l s ∧ s.token? = some t)
        (do advance; return form) (Form.IsTold items l least) :=
    (Tells.advance fun s hs => hs.1.close hs.2 ht).bind fun _ => Tells.pure fun s hs =>
      Form.isTold hs (by rw [told, List.append_nil]) no
  refine Tells.peek fun next => ?_
  split
  · exact closed rfl rfl rfl
  · exact closed rfl rfl rfl
  · exact annexOperand_tells _
  · exact literal_tells hg _
  · exact bracketed_tells hg
  · exact implicitPi_tells hg
  · exact (cnType_tells hg).pre fun _ => And.left
  · exact (fnType_tells hg).pre fun _ => And.left
  · exact (lm_tells hg).pre fun _ => And.left
  · exact (cn_tells hg).pre fun _ => And.left
  · exact (insert_tells hg).pre fun _ => And.left
  · exact (ret_tells hg).pre fun _ => And.left
  · exact (uniq_tells hg).pre fun _ => And.left
  · exact (array_tells hg).pre fun _ => And.left
  · exact (pack_tells hg).pre fun _ => And.left
  · exact (parenthesized_tells hg).pre fun _ => And.left
  · exact (match_tells hg).pre fun _ => And.left
  · exact closed rfl rfl rfl
  · exact Tells.see (fun _ => rfl) fun _ => Tells.invalid
  · exact Tells.ite ((block_tells hg).pre fun _ => And.left) Tells.unexpected
  · exact Tells.unexpected

end Operands

end Grammar

end Mim
