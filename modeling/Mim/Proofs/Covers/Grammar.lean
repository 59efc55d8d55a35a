import Mim.Proofs.Covers
import Mim.Proofs.Loops

/-! # Each rule of the grammar covers what it reads

The nodes of what a rule makes stand in the order in which it reads them. A rule for a form
or for a declaration never ends with a semicolon.
-/

namespace Mim

open Simulation Grammar

/-- How to read what is nested so that its nodes cover what is read. -/
structure Nested.LaysNodes (g : Nested) : Prop where
  expr (least : Prec) : Lays .firm [] (g.expr least)
  tuple (bracket : Bracket) : LaysIf (· = some bracket.open_) .firm [] (g.tuple bracket)
  depth : ∃ n, g = .upTo n

theorem Nested.LaysNodes.inStep {g : Nested} (hg : g.LaysNodes) {σ : Simulation} {m : Nat} :
    σ.Nests m g g := by
  obtain ⟨n, rfl⟩ := hg.depth
  exact nests_self

namespace Grammar

variable {P : Option Token → Prop}

section Names

theorem identifier_lays : LaysIf P .firm [] identifier := by
  refine LaysIf.peek fun t _ => ?_
  split
  · exact LaysIf.leaf (fun _ => LaysIf.pure ⟨rfl, rfl⟩) (by simp)
  · exact LaysIf.unexpected

theorem identifier?_lays : LaysIf P .loose [] identifier? := by
  refine LaysIf.look fun t => ?_
  split
  · exact identifier_lays.some_map.loosen
  · exact LaysIf.pure ⟨rfl, rfl⟩

theorem subtag_lays : LaysIf P .firm [] subtag := by
  refine LaysIf.node (LaysIf.before identifier_lays fun tag => ?_) fun _ _ => ⟨rfl, rfl⟩
  refine LaysIf.last (LaysIf.many ?_) fun _ => ⟨rfl, rfl⟩
  exact LaysIf.after identifier_lays

theorem subtagList_lays : LaysIf P .firm [] subtagList :=
  LaysIf.next LaysIf.expect_any <| LaysIf.bind (LaysIf.commaList subtag_lays) fun _ =>
    LaysIf.last (LaysIf.expect (by simp)) fun _ => ⟨rfl, by simp [nodes]⟩

theorem annex_lays : LaysIf P .firm [] annex := by
  refine LaysIf.node (LaysIf.peek fun t _ => ?_) fun _ _ => ⟨rfl, rfl⟩
  split
  · refine LaysIf.before (LaysIf.advance_at (by simp)) fun _ => LaysIf.look fun _ => ?_
    refine LaysIf.ite (LaysIf.pure ⟨rfl, rfl⟩) (LaysIf.ite ?_ ?_)
    · exact LaysIf.look fun _ => LaysIf.invalid
    · exact (LaysIf.last subtagList_lays fun _ => ⟨rfl, rfl⟩).loosen
  · exact LaysIf.look fun _ => LaysIf.invalid
  · exact LaysIf.unexpected

theorem name_lays : LaysIf P .firm [] name := by
  refine LaysIf.look fun b => LaysIf.ite ?_ (LaysIf.look fun t => ?_)
  · exact LaysIf.last annex_lays fun _ => ⟨rfl, rfl⟩
  · split
    · exact LaysIf.last identifier_lays fun _ => ⟨rfl, rfl⟩
    · exact LaysIf.unexpected

end Names

section Binders

variable {g : Nested} (hg : g.LaysNodes)
include hg

theorem anyExpr_lays : LaysIf P .firm [] (anyExpr g) := LaysIf.anywhere (hg.expr .bottom)

theorem typed_lays : LaysIf P .firm [] (typed g) := by
  refine LaysIf.node (LaysIf.bind identifier_lays fun _ => LaysIf.next LaysIf.expect_any ?_)
    fun _ _ => ⟨rfl, rfl⟩
  exact LaysIf.last (anyExpr_lays hg) fun _ => ⟨rfl, rfl⟩

theorem group_lays : LaysIf P .firm [] (group g) := by
  refine LaysIf.node (LaysIf.bind (LaysIf.many identifier?_lays) fun _ =>
    LaysIf.next LaysIf.expect_any ?_) fun _ _ => ⟨rfl, rfl⟩
  exact LaysIf.last (anyExpr_lays hg) fun _ => ⟨rfl, rfl⟩

theorem pattern_lays : LaysIf P .firm [] (pattern g) := by
  refine LaysIf.peek fun t _ => ?_
  split
  · exact hg.tuple .round
  · exact LaysIf.look fun _ => LaysIf.ite (typed_lays hg) (LaysIf.last identifier_lays fun _ => ⟨rfl, rfl⟩)
  · exact LaysIf.unexpected

theorem type_lays (least : Prec) : LaysIf P .firm [] (do return Binder.type (← g.expr least)) :=
  LaysIf.anywhere (LaysIf.last (hg.expr least) fun _ => ⟨rfl, rfl⟩)

theorem battern_lays (least : Prec) : LaysIf P .firm [] (battern g least) := by
  refine LaysIf.peek fun t _ => ?_
  split
  · exact hg.tuple .square
  · exact LaysIf.look fun _ => LaysIf.ite (typed_lays hg) (type_lays hg least)
  · exact type_lays hg least

theorem element_lays (bracket : Bracket) : Lays .firm [] (element g bracket) := by
  refine LaysIf.look fun _ => LaysIf.ite (LaysIf.ite (group_lays hg) ?_) ?_
  · exact LaysIf.look fun _ => LaysIf.look fun _ => group_lays hg
  · cases bracket with
    | round => exact pattern_lays hg
    | square | curly => exact battern_lays hg .bottom

theorem tuple_lays (bracket : Bracket) :
    LaysIf (· = some bracket.open_) .firm [] (tuple g bracket) := by
  have intact : bracket.close.IsIntact := ⟨by cases bracket <;> rfl⟩
  refine LaysIf.node (LaysIf.next (LaysIf.advance ?_) <| LaysIf.bind
    (LaysIf.commaList (element_lays hg bracket)) fun _ =>
      LaysIf.last (LaysIf.expect ?_) fun _ => ⟨rfl, by simp [nodes]⟩) fun _ _ => ⟨rfl, by simp⟩
  · rintro _ rfl
    cases bracket <;> rfl
  · cases bracket <;> simp [Bracket.close]

theorem binder_lays (annotated : Bool) : LaysIf P .firm [] (binder g annotated) := by
  have name : Lays .firm [] (do return Binder.name (← identifier)) :=
    LaysIf.last identifier_lays fun _ => ⟨rfl, rfl⟩
  refine LaysIf.look fun t => ?_
  split
  · exact pattern_lays hg
  · exact battern_lays hg .pi
  · refine LaysIf.look fun _ => LaysIf.look fun _ => LaysIf.ite (pattern_lays hg) ?_
    exact LaysIf.look fun _ => LaysIf.ite (LaysIf.look fun _ => name) name
  · exact LaysIf.ite (type_lays hg .pi) LaysIf.unexpected
  · exact LaysIf.unexpected

theorem domain_lays : LaysIf P .firm [] (domain g) := by
  have name : Lays .firm [] (do return Binder.name (← identifier)) :=
    LaysIf.last identifier_lays fun _ => ⟨rfl, rfl⟩
  refine LaysIf.peek fun t _ => ?_
  split
  · exact pattern_lays hg
  · exact battern_lays hg .pi
  · exact hg.tuple .curly
  · exact LaysIf.look fun _ => LaysIf.ite (LaysIf.look fun _ => LaysIf.look fun _ => name) name
  · exact LaysIf.ite (type_lays hg .union) LaysIf.unexpected
  · exact LaysIf.unexpected

theorem domain?_lays : LaysIf P .loose [] (domain? g) := by
  refine LaysIf.look fun t => ?_
  split
  · exact LaysIf.ite (domain_lays hg).some_map.loosen (LaysIf.pure ⟨rfl, rfl⟩)
  · exact LaysIf.pure ⟨rfl, rfl⟩

theorem piDomain_lays : LaysIf P .firm [] (piDomain g) :=
  LaysIf.sees (hg.tuple .curly) (battern_lays hg .pi)

end Binders

section Declarations

theorem curry_lays : LaysIf P .firm [] curry := by
  refine LaysIf.peek fun t _ => ?_
  split
  · refine LaysIf.span fun _ => LaysIf.before (LaysIf.advance_at (by simp)) fun _ => ?_
    exact LaysIf.ite (LaysIf.pure ⟨rfl, rfl⟩) LaysIf.invalid
  · exact LaysIf.unexpected

theorem curryAndTrip_lays : LaysIf P .firm [] curryAndTrip :=
  LaysIf.before curry_lays fun _ => LaysIf.last (LaysIf.after identifier_lays) fun _ => ⟨rfl, rfl⟩

theorem axmOptions_lays : LaysIf P .firm [] axmOptions := by
  unfold axmOptions identifier?
  rw [bind_assoc]
  refine LaysIf.look fun t => ?_
  split
  · rw [map_eq_bind, bind_assoc]
    refine LaysIf.before identifier_lays fun n => ?_
    rw [pure_bind]
    exact LaysIf.last (LaysIf.after curryAndTrip_lays) fun _ => ⟨rfl, rfl⟩
  · rw [pure_bind]
    exact LaysIf.last curryAndTrip_lays fun _ => ⟨rfl, rfl⟩

variable {g : Nested} (hg : g.LaysNodes)
include hg

/-- What a marker introduces, if it is an expression. -/
theorem afterExpr_lays {marker : Token} [marker.IsIntact] (least : Prec) :
    LaysIf P .loose [] (after marker (g.expr least)) := LaysIf.after (hg.expr least)

theorem axm_lays : LaysIf P .firm [] (axm g) := by
  refine LaysIf.next LaysIf.expect_any <| LaysIf.bind annex_lays fun name =>
    LaysIf.next LaysIf.expect_any <| LaysIf.before (anyExpr_lays hg) fun ty => ?_
  refine LaysIf.seq (LaysIf.after axmOptions_lays) fun o => ?_
  split
  · exact LaysIf.pure ⟨rfl, by simp⟩
  · exact LaysIf.pure ⟨rfl, by simp⟩

theorem cfun_lays : LaysIf P .firm [] (cfun g) := by
  have type_ : ∀ domain : Binder, Lays .firm (nodes domain)
      (do expect (.symbol .colon); return DeclForm.cfun domain (← anyExpr g)) :=
    fun domain => LaysIf.next LaysIf.expect_any <| LaysIf.last (anyExpr_lays hg) fun _ => ⟨rfl, rfl⟩
  refine LaysIf.next LaysIf.expect_any <| LaysIf.look fun _ => LaysIf.ite ?_ ?_
  · exact LaysIf.bind (battern_lays hg .pi) fun domain => type_ domain
  · have domain : Lays .firm [] (g.expr .pi >>= fun e => do
        let domain ← pure (Binder.type e)
        expect (.symbol .colon)
        return DeclForm.cfun domain (← anyExpr g)) :=
      LaysIf.bind (hg.expr .pi) fun e => type_ (.type e)
    exact LaysIf.look fun _ => LaysIf.look fun _ =>
      LaysIf.ite (LaysIf.look fun _ => LaysIf.look fun _ => domain) domain

theorem ccon_lays : LaysIf P .firm [] (ccon g) :=
  LaysIf.next LaysIf.expect_any <| LaysIf.last (battern_lays hg .pi) fun _ => ⟨rfl, rfl⟩

theorem let_lays : LaysIf P .firm [] (let_ g) := by
  refine LaysIf.next LaysIf.expect_any <| LaysIf.look fun _ => LaysIf.ite ?_ ?_
  · exact LaysIf.bind annex_lays fun _ => LaysIf.next LaysIf.expect_any <|
      LaysIf.last (anyExpr_lays hg) fun _ => ⟨rfl, rfl⟩
  · exact LaysIf.bind (binder_lays hg true) fun _ => LaysIf.next LaysIf.expect_any <|
      LaysIf.last (anyExpr_lays hg) fun _ => ⟨rfl, rfl⟩

theorem param_lays : LaysIf P .firm [] (param g) := by
  refine LaysIf.node (LaysIf.before (domain_lays hg) fun domain =>
    LaysIf.sees ?_ (LaysIf.pure ⟨rfl, by simp⟩)) fun a place => ⟨rfl, by simp⟩
  · have filter : LaysIf (· = some (.symbol .atSign)) .loose (nodes domain)
        (do advance; return (domain, some (← g.expr .union))) :=
      LaysIf.loosen <| LaysIf.next (LaysIf.advance_at (by simp)) <|
        LaysIf.last (hg.expr .union) fun _ => ⟨rfl, rfl⟩
    rw [if_pos rfl]
    split
    · exact LaysIf.span fun _ => LaysIf.note filter
    · exact filter

theorem param?_lays : LaysIf P .loose [] (param? g) := by
  refine LaysIf.look fun t => ?_
  split
  · exact LaysIf.ite (param_lays hg).some_map.loosen (LaysIf.pure ⟨rfl, rfl⟩)
  · exact LaysIf.pure ⟨rfl, rfl⟩

theorem lam_lays : LaysIf P .firm [] (lam g) := by
  refine LaysIf.node (LaysIf.peek fun t _ => ?_) fun a place => ⟨rfl, by simp⟩
  split
  · exact LaysIf.unexpected
  · next kind ht =>
    have whole : t.any Token.isBroken = false := by
      obtain ⟨t, rfl, ht⟩ := Option.bind_eq_some_iff.1 ht
      cases t <;> first | rfl | cases ht
    refine LaysIf.next (LaysIf.advance (by rintro _ rfl; exact whole)) <|
      LaysIf.bind LaysIf.accept_any fun _ => ?_
    refine LaysIf.before name_lays fun name => LaysIf.seq (LaysIf.many (param?_lays hg)) fun _ => ?_
    refine LaysIf.seq (afterExpr_lays hg .bottom) fun _ => ?_
    exact LaysIf.last (afterExpr_lays hg .bottom) fun _ => ⟨rfl, by simp [nodes]⟩

theorem recBinding_lays : LaysIf P .firm [] (recBinding g) := by
  refine LaysIf.node (LaysIf.bind name_lays fun _ => LaysIf.bind (afterExpr_lays hg .bottom) fun _ =>
    LaysIf.next LaysIf.expect_any ?_) fun a place => ⟨rfl, by simp⟩
  exact LaysIf.last (anyExpr_lays hg) fun _ => ⟨rfl, by simp [nodes]⟩

theorem nextRecBinding?_lays : Lays .loose [] (nextRecBinding? g) :=
  LaysIf.look fun _ => LaysIf.ite (LaysIf.pure ⟨rfl, rfl⟩) (LaysIf.after (recBinding_lays hg))

theorem rec_lays : LaysIf P .firm [] (rec_ g) :=
  LaysIf.next LaysIf.expect_any <|
    LaysIf.before (LaysIf.many1 (recBinding_lays hg) (nextRecBinding?_lays hg)) fun _ =>
      LaysIf.last (LaysIf.after (lam_lays hg)) fun _ => ⟨rfl, by simp⟩

theorem rule_lays : LaysIf P .firm [] (rule g) := by
  have rest : ∀ kind : RuleKind, Lays .firm [] (do
      let binder ← binder g false
      expect (.symbol .colon)
      let lhs ← anyExpr g
      let guard ← after (.keyword .when_) (anyExpr g)
      expect (.symbol .fatArrow)
      return DeclForm.rule kind binder lhs guard (← anyExpr g)) := fun kind =>
    LaysIf.bind (binder_lays hg false) fun _ => LaysIf.next LaysIf.expect_any <|
      LaysIf.bind (anyExpr_lays hg) fun _ => LaysIf.bind (afterExpr_lays hg .bottom) fun _ =>
        LaysIf.next LaysIf.expect_any <|
          LaysIf.last (anyExpr_lays hg) fun _ => ⟨rfl, by simp⟩
  refine LaysIf.bind LaysIf.accept_any fun b => LaysIf.ite ?_ ?_
  · exact rest .norm
  · exact LaysIf.next LaysIf.expect_any (rest .rule)

theorem declForm_lays : LaysIf P .firm [] (declForm g) := by
  refine LaysIf.look fun t => ?_
  split
  · exact axm_lays hg
  · exact cfun_lays hg
  · exact ccon_lays hg
  · exact let_lays hg
  · exact rec_lays hg
  · exact (lam_lays hg).map fun _ => ⟨rfl, rfl⟩
  · exact (lam_lays hg).map fun _ => ⟨rfl, rfl⟩
  · exact (lam_lays hg).map fun _ => ⟨rfl, rfl⟩
  · exact rule_lays hg
  · exact rule_lays hg
  · exact LaysIf.unexpected

theorem declaration_lays : LaysIf P .firm [] (declaration g) := by
  intro s d s' _ run
  obtain ⟨form, inner, rfl⟩ := declaration_ok.1 run
  obtain ⟨known, ns, hn, laid⟩ := declForm_lays hg (P := Anywhere) s form _ trivial inner
  obtain rfl : form.parts = ns := hn
  obtain ⟨n, rfl⟩ := hg.depth
  refine ⟨rfl, _, rfl, Laid.inside laid rfl (congrArg Bool.not known) fun after => ⟨nofun, ?_⟩⟩
  rintro d hd -
  obtain rfl := Option.some.inj hd
  exact ⟨s, _, _, _, .refl s, after, .refl _, n, run⟩

end Declarations

section Recovery

variable {α : Type} [Noded α]

theorem after_skip (inWhere : Bool) (s : Reading) : ∃ cs, s.After cs (s.skip inWhere) := by
  obtain ⟨n, hn⟩ : ∃ n, s.rest.length = n := ⟨_, rfl⟩
  induction n generalizing s with
  | zero =>
      rw [Reading.skip_of_none (Reading.token?_eq_none.2 (List.length_eq_zero_iff.1 hn))]
      exact ⟨[], .refl s⟩
  | succ n ih =>
      obtain ⟨i, rest, hs⟩ := List.exists_cons_of_length_eq_add_one hn
      rw [Reading.skip_of_some (Reading.token?_eq_some.2 ⟨i, rest, hs, rfl⟩)]
      split
      · exact ⟨[i], .advance hs⟩
      · split
        · exact ⟨[], .refl s⟩
        · obtain ⟨cs, after⟩ := ih s.advance (by simpa [Reading.advance_eq hs, hs] using hn)
          exact ⟨[i] ++ cs, (Reading.After.advance hs).trans after⟩

/-- Recovery passes over a token at least. -/
theorem after_recover {inWhere : Bool} {s s' : Reading} {cs : List Item} (hs : s.token? ≠ none)
    (after : s.After cs s') :
    ∃ ds, ds ≠ [] ∧ s.After ds (s'.recover inWhere s).2 ∧
      (s'.recover inWhere s).1 = (s'.recover inWhere s).2.spanFrom s.span.start := by
  rw [Reading.recover_eq]
  obtain ⟨ds, ne, first⟩ : ∃ ds, ds ≠ [] ∧
      s.After ds (if s'.rest.length = s.rest.length then s'.advance else s') := by
    split
    · next length =>
        obtain rfl : cs = [] := by simpa [after.rest] using length
        obtain ⟨i, rest, hrest⟩ := List.exists_cons_of_ne_nil fun h =>
          hs (Reading.token?_eq_none.2 h)
        have hrest' : s'.rest = i :: rest := after.rest.symm.trans hrest
        exact ⟨[i], by simp, after.trans (.advance hrest')⟩
    · next length =>
        exact ⟨cs, fun h => length (by rw [after.rest, h]; rfl), after⟩
  obtain ⟨ds', skip⟩ := after_skip inWhere (if s'.rest.length = s.rest.length then s'.advance else s')
  exact ⟨ds ++ ds', by simp [ne], first.trans skip, rfl⟩

omit [Noded α] in
/-- What is passed over after a failure is an error that was recorded or broken text. -/
theorem not_sound_recover {inWhere : Bool} {s s' : Reading} {e : ParseError} {marks : Span → Prop}
    (onward : s.Onward 0 s') (blames : s'.Blames marks e) :
    ¬ s.Sound ((s'.report e).recover inWhere s).2 := by
  rintro ⟨rest, recorded⟩
  obtain ⟨cs, after⟩ := onward.after
  have told : e.isReported = false → False := fun he => by
    have errors := after.errors_le
    rw [Reading.recorded_recover, Reading.report, he, if_neg Bool.false_ne_true, Reading.record,
      List.countP_cons_of_pos rfl] at recorded
    omega
  cases blames with
  | @broken reason silent ht =>
      obtain ⟨i, tail, htail, token⟩ := Reading.token?_eq_some.1 ht
      obtain ⟨ds, skip⟩ := after_skip inWhere s'.advance
      have first : [i].countP (·.token.isBroken) = 1 := by simp [token, Token.isBroken]
      have before := after.broken_eq
      have here := (Reading.After.advance htail).broken_eq
      have behind := skip.broken_eq
      rw [Reading.report, if_pos silent, Reading.recover_broken ht] at rest
      omega
  | token he => exact told he
  | stop _ he => exact told (by rw [he]; rfl)

theorem declarationOrError_lays {inWhere : Bool} {p : Parser Decl} (hp : LaysIf P .any [] p)
    (hs : ∀ t, P t → t ≠ none)
    (failed : ∀ {s e s'}, p s = .error e s' → s.Onward 0 s' ∧ s'.Blames (fun _ => True) e) :
    LaysIf P .any [] (declarationOrError inWhere p) := by
  intro s d s' hP run
  obtain ⟨r, s₁, first, done⟩ := bind_ok.1 run
  cases hps : p s with
  | ok a s₂ =>
      rw [recovering_ok hps] at first
      cases first
      obtain ⟨rfl, rfl⟩ := pure_ok.1 done
      exact hp s a _ hP hps
  | error e s₂ =>
      rw [recovering_error hps] at first
      cases first
      obtain ⟨rfl, rfl⟩ := pure_ok.1 done
      obtain ⟨onward, blames⟩ := failed hps
      obtain ⟨cs, after⟩ := onward.after
      obtain ⟨ds, ne, after, place⟩ := after_recover (hs _ hP) (after.trans (.report e))
      refine ⟨rfl, _, rfl, ds, after, trivial, .single ?_ ⟨nofun, ?_⟩ (.items _), ?_⟩
      · change ((s₂.report e).recover inWhere s).1.Over ds
        rw [place]
        exact after.spanFrom_over ne
      · rintro _ hd whole
        obtain rfl := Option.some.inj hd
        cases whole
      · refine iff_of_false (fun whole => ?_) (not_sound_recover onward blames)
        cases ((Node.allWhole_cons _ _).1 whole).1.1

variable {g : Nested} (hg : g.LaysNodes)
include hg

theorem declaration_failed {s s' : Reading} {e : ParseError} (run : declaration g s = .error e s') :
    s.Onward 0 s' ∧ s'.Blames (fun _ => True) e :=
  (declaration_inStep hg.inStep).onward_error (P := Anywhere) trivial run

omit hg in
theorem nodes_filterMap_id (parts : List (Option Decl)) :
    nodes (parts.filterMap id) = nodes parts := by
  induction parts with
  | nil => rfl
  | cons part parts ih =>
      cases part with
      | none => exact ih
      | some d => exact congrArg (nodes d ++ ·) ih

theorem whereBody_lays : LaysIf P .firm [] (whereBody g) := by
  refine LaysIf.bind (LaysIf.many_any ?_) fun parts => LaysIf.last (LaysIf.expect (by simp)) fun _ => ?_
  · refine LaysIf.bind LaysIf.accept_any fun b => LaysIf.ite (LaysIf.any (LaysIf.pure ⟨rfl, rfl⟩)) ?_
    refine LaysIf.peek fun t _ => ?_
    split
    · exact LaysIf.any (LaysIf.pure ⟨rfl, rfl⟩)
    · exact LaysIf.any (LaysIf.pure ⟨rfl, rfl⟩)
    · refine LaysIf.last (declarationOrError_lays (declaration_lays hg).any ?_
        (declaration_failed hg)) fun _ => ⟨rfl, rfl⟩
      rintro _ rfl
      simp
  · exact ⟨rfl, (nodes_filterMap_id parts).trans (List.append_nil _).symm⟩

end Recovery

section Operands

variable {g : Nested} (hg : g.LaysNodes)
include hg

theorem literal_lays (least : Prec) (value : Literal) :
    LaysIf (· = some (.literal value)) .firm [] (literal g least value) := by
  have ascribed : ∀ place, Lays .firm [.leaf place] (accept (.symbol .colon) >>= fun _ => do
      if .ascription < least then note .typeToLiteral place
      return Form.ascribed value place (← anyExpr g)) := fun place =>
    have ty : Lays .firm [.leaf place] (do return Form.ascribed value place (← anyExpr g)) :=
      LaysIf.last (anyExpr_lays hg) fun _ => ⟨rfl, rfl⟩
    LaysIf.bind LaysIf.accept_any fun _ => LaysIf.ite (LaysIf.look fun _ => ty) ty
  intro s form s' hs run
  rw [literal, span_bind, advance_bind] at run
  obtain ⟨b, s₁, colon, rest⟩ := bind_ok.1 run
  rcases accept_ok.1 colon with ⟨rfl, -, -⟩ | ⟨rfl, -, rfl⟩
  · refine LaysIf.leaf (fun place => (ascribed place).loosen) (by simp) s form s' hs ?_
    rw [span_bind, advance_bind]
    exact bind_ok.2 ⟨true, s₁, colon, rest⟩
  · obtain ⟨rfl, rfl⟩ := pure_ok.1 rest
    have one : LaysIf (· = some (.literal value)) .firm [] (do advance; return Form.literal value) :=
      LaysIf.last (LaysIf.advance_at (by simp)) fun _ => ⟨rfl, rfl⟩
    exact one s _ _ hs rfl

omit hg in
theorem annexOperand_lays (path : AnnexPath) :
    LaysIf (· = some (.annex path)) .firm [] (annexOperand path) := by
  refine LaysIf.before (LaysIf.advance_at (by simp)) fun _ => LaysIf.look fun _ => ?_
  refine LaysIf.ite ?_ (LaysIf.pure ⟨rfl, rfl⟩)
  exact LaysIf.look fun _ => LaysIf.look fun _ => LaysIf.pure ⟨rfl, rfl⟩

theorem blockDeclaration?_lays : Lays .any [] (blockDeclaration? g) := by
  refine LaysIf.look fun t => ?_
  split
  · refine LaysIf.ite (LaysIf.bind (declaration_lays hg) fun d => ?_) (LaysIf.any (LaysIf.pure ⟨rfl, rfl⟩))
    rw [discard_eq_bind, bind_assoc]
    refine LaysIf.bind LaysIf.accept_any fun _ => ?_
    rw [pure_bind]
    exact LaysIf.any (LaysIf.pure ⟨rfl, by simp [nodes]⟩)
  · exact LaysIf.any (LaysIf.pure ⟨rfl, rfl⟩)

theorem block_lays : LaysIf P .firm [] (block g) :=
  LaysIf.bind (LaysIf.many_any (blockDeclaration?_lays hg)) fun _ =>
    LaysIf.last (anyExpr_lays hg) fun _ => ⟨rfl, by simp⟩

theorem bracketed_lays : LaysIf (· = some (.symbol .leftBracket)) .firm [] (bracketed g) := by
  refine LaysIf.before (tuple_lays hg .square) fun tuple => ?_
  refine LaysIf.seq (afterExpr_lays hg .arrow) fun codomain => ?_
  split
  · exact LaysIf.pure ⟨rfl, by simp⟩
  · exact LaysIf.last (LaysIf.after name_lays) fun _ => ⟨rfl, by simp⟩

theorem implicitPi_lays : LaysIf (· = some (.symbol .leftBrace)) .firm [] (implicitPi g) :=
  LaysIf.bind (tuple_lays hg .curly) fun _ => LaysIf.next LaysIf.expect_any <|
    LaysIf.last (hg.expr .arrow) fun _ => ⟨rfl, by simp⟩

theorem cnType_lays : LaysIf P .firm [] (cnType g) :=
  LaysIf.next LaysIf.expect_any <| LaysIf.last (piDomain_lays hg) fun _ =>
    ⟨rfl, by simp⟩

theorem fnType_lays : LaysIf P .firm [] (fnType g) :=
  LaysIf.next LaysIf.expect_any <| LaysIf.before (piDomain_lays hg) fun _ =>
    LaysIf.last (afterExpr_lays hg .arrow) fun _ => ⟨rfl, by simp⟩

theorem lm_lays : LaysIf P .firm [] (lm g) :=
  LaysIf.next LaysIf.expect_any <|
    LaysIf.bind (LaysIf.many1 (domain_lays hg) (domain?_lays hg)) fun _ =>
      LaysIf.bind (afterExpr_lays hg .bottom) fun _ => LaysIf.next LaysIf.expect_any <|
        LaysIf.last (anyExpr_lays hg) fun _ => ⟨rfl, by simp⟩

theorem pattern?_lays : LaysIf P .loose [] (pattern? g) := by
  refine LaysIf.look fun t => ?_
  split
  · exact (pattern_lays hg).some_map.loosen
  · exact (pattern_lays hg).some_map.loosen
  · exact LaysIf.pure ⟨rfl, rfl⟩

theorem cn_lays : LaysIf P .firm [] (cn g) :=
  LaysIf.next LaysIf.expect_any <|
    LaysIf.bind (LaysIf.many1 (pattern_lays hg) (pattern?_lays hg)) fun _ =>
      LaysIf.next LaysIf.expect_any <|
        LaysIf.last (anyExpr_lays hg) fun _ => ⟨rfl, by simp⟩

theorem insert_lays : LaysIf P .firm [] (insert g) :=
  LaysIf.next LaysIf.expect_any <| LaysIf.next LaysIf.expect_any <|
    LaysIf.bind (anyExpr_lays hg) fun _ => LaysIf.next LaysIf.expect_any <|
      LaysIf.bind (anyExpr_lays hg) fun _ => LaysIf.next LaysIf.expect_any <|
        LaysIf.bind (anyExpr_lays hg) fun _ =>
          LaysIf.last (LaysIf.expect (by simp)) fun _ => ⟨rfl, by simp⟩

theorem ret_lays : LaysIf P .firm [] (ret g) :=
  LaysIf.next LaysIf.expect_any <| LaysIf.bind (binder_lays hg true) fun _ =>
    LaysIf.next LaysIf.expect_any <| LaysIf.bind (anyExpr_lays hg) fun _ =>
      LaysIf.next LaysIf.expect_any <| LaysIf.bind (anyExpr_lays hg) fun _ =>
        LaysIf.next LaysIf.expect_any <|
          LaysIf.last (anyExpr_lays hg) fun _ => ⟨rfl, by simp⟩

theorem uniq_lays : LaysIf P .firm [] (uniq g) :=
  LaysIf.next LaysIf.expect_any <| LaysIf.bind (anyExpr_lays hg) fun _ =>
    LaysIf.last (LaysIf.expect (by simp)) fun _ => ⟨rfl, by simp⟩

theorem array_lays : LaysIf P .firm [] (array g) :=
  LaysIf.next LaysIf.expect_any <| LaysIf.bind (anyExpr_lays hg) fun _ =>
    LaysIf.bind (LaysIf.after_any (LaysIf.commaList (anyExpr_lays hg))) fun others =>
      LaysIf.next LaysIf.expect_any <| LaysIf.bind (anyExpr_lays hg) fun _ =>
        LaysIf.last (LaysIf.expect (by simp)) fun _ =>
          ⟨rfl, by cases others <;> simp⟩

theorem pack_lays : LaysIf P .firm [] (pack g) :=
  LaysIf.next LaysIf.expect_any <| LaysIf.bind (anyExpr_lays hg) fun _ =>
    LaysIf.next LaysIf.expect_any <| LaysIf.bind (anyExpr_lays hg) fun _ =>
      LaysIf.last (LaysIf.expect (by simp)) fun _ => ⟨rfl, by simp⟩

theorem parenthesized_lays : LaysIf P .firm [] (parenthesized g) :=
  LaysIf.next LaysIf.expect_any <| LaysIf.bind (LaysIf.commaList (anyExpr_lays hg)) fun _ =>
    LaysIf.last (LaysIf.expect (by simp)) fun _ => ⟨rfl, by simp⟩

theorem arm_lays : LaysIf P .firm [] (arm g) := by
  exact LaysIf.node (LaysIf.bind (binder_lays hg true) fun _ => LaysIf.next LaysIf.expect_any <|
    LaysIf.last (anyExpr_lays hg) fun _ => ⟨rfl, rfl⟩) fun _ _ => ⟨rfl, by simp⟩

theorem firstArm?_lays : LaysIf P .loose [] (firstArm? g) := by
  refine LaysIf.look fun t => ?_
  split
  · exact LaysIf.ite (arm_lays hg).some_map.loosen (LaysIf.pure ⟨rfl, rfl⟩)
  · exact LaysIf.pure ⟨rfl, rfl⟩

theorem match_lays : LaysIf P .firm [] (match_ g) := by
  refine LaysIf.next LaysIf.expect_any <| LaysIf.bind (anyExpr_lays hg) fun _ => ?_
  refine LaysIf.before (LaysIf.expect (by simp)) fun _ => LaysIf.seq (firstArm?_lays hg) fun first => ?_
  refine LaysIf.last (LaysIf.many (LaysIf.after (arm_lays hg))) fun _ => ⟨rfl, ?_⟩
  cases first <;> simp

/-- Where no broken text comes next, the form of an operand is no placeholder. -/
theorem operandForm_lays (least : Prec) :
    LaysIf (fun t => t.any Token.isBroken = false) .firm [] (operandForm g least) := by
  have one : ∀ {t : Token} [t.IsIntact] {form : Form}, t ≠ .symbol .semicolon →
      Noded.Made form [] → LaysIf (· = some t) .firm [] (do advance; return form) :=
    fun ht made => LaysIf.last (LaysIf.advance_at ht) fun _ => made
  refine LaysIf.peek fun t intact => ?_
  split
  · exact one (by simp) ⟨rfl, rfl⟩
  · exact one (by simp) ⟨rfl, rfl⟩
  · exact annexOperand_lays _
  · exact literal_lays hg least _
  · exact bracketed_lays hg
  · exact implicitPi_lays hg
  · exact cnType_lays hg
  · exact fnType_lays hg
  · exact lm_lays hg
  · exact cn_lays hg
  · exact insert_lays hg
  · exact ret_lays hg
  · exact uniq_lays hg
  · exact array_lays hg
  · exact pack_lays hg
  · exact parenthesized_lays hg
  · exact match_lays hg
  · cases intact
  · exact LaysIf.look fun _ => LaysIf.invalid
  · exact LaysIf.ite (block_lays hg) LaysIf.unexpected
  · exact LaysIf.unexpected

end Operands

section Expressions

variable {g : Nested} (hg : g.LaysNodes)
include hg

/-- What an operator makes has its left operand as its first node. -/
theorem infixForm_lays (lhs : Expr) (op : Operator) :
    LaysIf (fun t => t.bind Operator.ofToken? = some op) .loose [lhs.node] (infixForm g lhs op) := by
  have right : ∀ (op : Operator) (f : Expr → Form),
      (∀ e, Noded.Made (f e) [lhs.node, e.node]) →
      Lays .firm [lhs.node] (infixForm.right g op >>= fun e => pure (f e)) := fun op f hf =>
    LaysIf.last (hg.expr op.rightMin) hf
  have sign : op ≠ .application →
      LaysIf (fun t => t.bind Operator.ofToken? = some op) .any [] advance := fun ne => by
    refine LaysIf.advance fun t ht => ?_
    obtain ⟨t, rfl, juxtaposed⟩ := Option.bind_eq_some_iff.1 ht
    cases t with
    | error reason => exact absurd (Option.some.inj ht).symm ne
    | _ => rfl
  cases op with
  | where_ =>
      exact LaysIf.loosen <| LaysIf.next (sign nofun) <|
        LaysIf.last (whereBody_lays hg) fun _ => ⟨rfl, by simp⟩
  | arrow =>
      exact LaysIf.loosen <| LaysIf.next (sign nofun) <| right .arrow _ fun _ => ⟨rfl, rfl⟩
  | injection =>
      exact LaysIf.loosen <| LaysIf.next (sign nofun) <| right .injection _ fun _ => ⟨rfl, rfl⟩
  | application => exact LaysIf.anywhere (right .application _ fun _ => ⟨rfl, rfl⟩).loosen
  | explicitApplication =>
      exact LaysIf.loosen <| LaysIf.next (sign nofun) <|
        right .explicitApplication _ fun _ => ⟨rfl, rfl⟩
  | union =>
      exact LaysIf.last (LaysIf.many (LaysIf.after (hg.expr _))) fun _ => ⟨rfl, by simp⟩
  | extraction =>
      exact LaysIf.loosen <| LaysIf.next (sign nofun) <| right .extraction _ fun _ => ⟨rfl, rfl⟩

omit hg in
/-- Broken text is an operand. -/
theorem operandForm_broken {least : Prec} {s : Reading} {reason : LexError}
    (h : s.token? = some (.error reason)) : operandForm g least s = .ok .error s.advance := by
  unfold operandForm
  rw [peek_bind, h]
  rfl

/-- An operand covers what it is read from. Broken text is an operand that is a placeholder. -/
theorem operand_lays {least : Prec} {lhs : Expr} {s s' : Reading}
    (run : operand g least s = .ok lhs s') :
    lhs.span = s'.spanFrom s.span.start ∧
      ((∀ {cs}, s.After cs s' → lhs.IsReadFrom s s' cs) → Laid .firm s s' [lhs.node]) := by
  obtain ⟨⟨form, place⟩, s₁, first, done⟩ := bind_ok.1 run
  obtain ⟨rfl, rfl⟩ := pure_ok.1 done
  obtain ⟨inner, rfl⟩ := located_ok.1 first
  refine ⟨rfl, fun read => ?_⟩
  have read : ∀ {cs}, s.After cs s₁ → (Expr.node ⟨form, _⟩).IsReadFrom s s₁ cs := fun after =>
    ⟨fun e he => Option.some.inj he ▸ read after, nofun⟩
  by_cases broken : s.token?.any Token.isBroken
  · obtain ⟨t, ht, broken⟩ := (Option.any_eq_true ..).1 broken
    obtain ⟨reason, rfl⟩ : ∃ reason, t = .error reason := by
      cases t <;> first | exact ⟨_, rfl⟩ | cases broken
    rw [operandForm_broken ht] at inner
    cases inner
    obtain ⟨i, rest, hrest, token⟩ := Reading.token?_eq_some.1 ht
    have after := Reading.After.advance hrest
    refine ⟨[i], after, ⟨i, rfl, by simp [token]⟩, .single (after.spanFrom_over (by simp)) (read after)
      (.items _), iff_of_false (fun whole => ?_) fun sound => ?_⟩
    · cases ((Node.allWhole_cons _ _).1 whole).1.1
    · have count := after.broken_eq
      have first : [i].countP (·.token.isBroken) = 1 := by simp [token, Token.isBroken]
      have same := sound.rest
      omega
  · obtain ⟨whole, ns, hn, laid⟩ := operandForm_lays hg least s form _ (by simpa using broken) inner
    obtain rfl : form.parts = ns := hn
    exact Laid.inside laid rfl (congrArg Bool.not whole) read

omit hg in
/-- What has been read so far of an expression covers what has been read so far. -/
theorem reaches_lays {n : Nat} (hg : (Nested.upTo n).LaysNodes) {least : Prec} {lhs e : Expr}
    {s s₁ s' : Reading} (first : operand (Nested.upTo n) least s = .ok lhs s₁)
    (reaches : Reaches (extend? (Nested.upTo n) least) lhs s₁ e s') :
    e.span = s'.spanFrom s.span.start ∧ Laid .firm s s' [e.node] := by
  induction reaches with
  | refl =>
      obtain ⟨place, laid⟩ := operand_lays hg first
      exact ⟨place, laid fun after =>
        ⟨s, _, _, _, .refl s, after, .refl _, n, least, _, _, first, .refl⟩⟩
  | @more b _ _ s₁ _ reaches step ih =>
      obtain ⟨place, laid⟩ := ih first
      rcases extend?_ok.1 step with ⟨-, none, -⟩ | ⟨op, hop, -, e', eq, run⟩
      · cases none
      obtain rfl := Option.some.inj eq
      obtain ⟨form, s₂, inner, done⟩ := bind_ok.1 run
      rw [get_bind] at done
      obtain ⟨rfl, rfl⟩ := pure_ok.1 done
      have ahead : s₁.noted.token?.bind Operator.ofToken? = some op := by
        rw [Reading.token?, s₁.rest_noted]
        exact Reading.ofToken?_of_operator? hop
      obtain ⟨whole, ns, hn, laid'⟩ := infixForm_lays hg _ op _ form _ ahead inner
      have inside : Laid .firm s s₂ form.parts := by
        rw [show form.parts = _ from hn]
        exact laid.append (.quiet .noted .noted laid') Ending.before
      have same := congrArg (fun place : Span => s₂.spanFrom place.start) place
      refine ⟨same, Laid.inside inside same (congrArg Bool.not whole) fun after => ⟨?_, ?_⟩⟩
      · rintro e he
        obtain rfl := Option.some.inj he
        exact ⟨s, _, _, _, .refl s, after, .refl _, n, least, _, _, first, .more reaches step⟩
      · rintro _ ⟨⟩

omit hg in
theorem reaches_of_grows {α : Type} {step : α → Parser (Option α)} {a b c : α}
    {s s₁ s' : Reading} (reaches : Reaches step a s b s₁) (grows : Grows step b s₁ c s') :
    ∃ s₂, Reaches step a s c s₂ ∧ step c s₂ = .ok none s' := by
  induction grows with
  | stop run => exact ⟨_, reaches, run⟩
  | more run _ ih => exact ih (.more reaches run)

omit hg in
theorem expr_lays {n : Nat} (hg : (Nested.upTo n).LaysNodes) (least : Prec) :
    Lays .firm [] (expr (Nested.upTo n) least) := by
  intro s e s' _ run
  obtain ⟨lhs, s₁, first, rest⟩ := bind_ok.1 run
  have advances : ∀ a, Advances (extend? (Nested.upTo n) least a) := fun _ _ _ _ run =>
    (extend?_onward hg.inStep run).length
  obtain ⟨s₂, reaches, stop⟩ := reaches_of_grows .refl ((grow_ok advances).1 rest)
  rcases extend?_ok.1 stop with ⟨-, -, rfl⟩ | ⟨_, -, -, _, none, -⟩
  · exact ⟨rfl, _, rfl, (reaches_lays hg first reaches).2.append
      (.quiet .noted .noted (.refl _)) Ending.before⟩
  · cases none

end Expressions

/-- Forms nested to any depth cover what is read. -/
theorem lays_upTo : ∀ n, (Nested.upTo n).LaysNodes
  | 0 => ⟨fun _ => LaysIf.unexpected, fun _ => LaysIf.unexpected, 0, rfl⟩
  | n + 1 => ⟨expr_lays (lays_upTo n), fun _ => tuple_lays (lays_upTo n) _, n + 1, rfl⟩

section Files

theorem dependency_lays : LaysIf P .filled [] dependency := by
  have name : ∀ kind : DependencyKind, Lays .filled [] (do
      let name ← identifier
      expect (.symbol .semicolon)
      return (kind, name)) := fun kind =>
    LaysIf.bind identifier_lays fun _ => LaysIf.last LaysIf.expect_filled fun _ => ⟨rfl, rfl⟩
  refine LaysIf.node (LaysIf.bind LaysIf.accept_any fun b => LaysIf.ite ?_ ?_) fun _ _ => ⟨rfl, rfl⟩
  · exact name .plugin
  · exact LaysIf.next LaysIf.expect_any (name .import_)

/-- A dependency covers what it is read from; of a broken one nothing is left. -/
theorem recovering_dependency_covers {s s' : Reading} {part : Except Span Dependency}
    (some : s.token? ≠ none) (run : recovering false dependency s = .ok part s') :
    ∃ cs, s.After cs s' ∧ Covers s s' cs (nodes part.toOption) := by
  cases hps : dependency s with
  | ok d s₁ =>
      rw [recovering_ok hps] at run
      cases run
      obtain ⟨-, ns, hn, cs, after, -, covers, -⟩ := dependency_lays (P := Anywhere) s d _ trivial hps
      obtain rfl : nodes d = ns := hn
      exact ⟨cs, after, covers⟩
  | error e s₁ =>
      rw [recovering_error hps] at run
      cases run
      obtain ⟨onward, -⟩ := dependency_inStep.onward_error (P := Anywhere) trivial hps
      obtain ⟨_, failed⟩ := onward.after
      obtain ⟨cs, -, after, -⟩ := after_recover some (failed.trans (.report e))
      exact ⟨cs, after, .items cs⟩

theorem dependencies_cover {s s' : Reading} {ds : List Dependency}
    (run : dependencies s = .ok ds s') :
    ∃ cs, s.After cs s' ∧ Covers s s' cs (nodes ds) := by
  obtain ⟨parts, s₁, loop, done⟩ := bind_ok.1 run
  obtain ⟨rfl, rfl⟩ := pure_ok.1 done
  change manyUpTo _ (s.rest.length + 1) s = _ at loop
  generalize s.rest.length + 1 = n at loop
  clear run done
  induction n generalizing s parts with
  | zero =>
      obtain ⟨rfl, rfl⟩ := pure_ok.1 loop
      exact ⟨[], .refl s, .nil⟩
  | succ n ih =>
      obtain ⟨part, s₂, first, rest⟩ := bind_ok.1 loop
      rw [bind_of_ok dependencyAhead_run] at first
      cases ahead : s.token?.any startsDependency with
      | false =>
          rw [ahead] at first
          obtain ⟨rfl, rfl⟩ := pure_ok.1 first
          obtain ⟨rfl, rfl⟩ := pure_ok.1 rest
          exact ⟨[], .refl s, .nil⟩
      | true =>
          rw [ahead, show (if true = true then some <$> recovering false dependency else pure none) =
            some <$> recovering false dependency from rfl, map_eq_bind] at first
          obtain ⟨part, s₃, inner, done⟩ := bind_ok.1 first
          obtain ⟨rfl, rfl⟩ := pure_ok.1 done
          obtain ⟨parts, s₄, later, done⟩ := bind_ok.1 rest
          obtain ⟨rfl, rfl⟩ := pure_ok.1 done
          have some : s.token? ≠ none := fun none => by simp [none] at ahead
          obtain ⟨ds, after, covers⟩ := recovering_dependency_covers some inner
          obtain ⟨cs, after', covers'⟩ := ih _ later
          refine ⟨ds ++ cs, after.trans after', ?_⟩
          have both := (covers.within (.refl s) after').append (covers'.within after (.refl _))
          cases part <;> exact both

/-- Where no dependency comes next, none is read. -/
theorem dependencies_none {s : Reading} (h : s.token?.any startsDependency = false) :
    dependencies s = .ok [] s := by
  refine bind_ok.2 ⟨[], s, bind_ok.2 ⟨s, s, rfl, bind_ok.2 ⟨none, s, ?_, rfl⟩⟩, rfl⟩
  rw [bind_of_ok dependencyAhead_run, h]
  rfl

variable {g : Nested} (hg : g.LaysNodes)
include hg

theorem fileDeclaration_lays : LaysIf P .any [] (fileDeclaration g) := by
  have read : Lays .any [] (do
      let d ← declaration g
      discard (accept (.symbol .semicolon))
      return d) := by
    refine LaysIf.bind (declaration_lays hg) fun d => ?_
    rw [discard_eq_bind, bind_assoc]
    refine LaysIf.bind LaysIf.accept_any fun _ => ?_
    rw [pure_bind]
    exact LaysIf.any (LaysIf.pure ⟨rfl, by simp [nodes]⟩)
  refine LaysIf.look fun _ => LaysIf.ite (LaysIf.look fun _ => ?_) read
  exact LaysIf.next (LaysIf.invalid (e := .any)) read

theorem declarations_lays : Lays .any [] (declarations g) := by
  refine LaysIf.many_any (LaysIf.peek fun t _ => ?_)
  split
  · exact LaysIf.any (LaysIf.pure ⟨rfl, rfl⟩)
  · refine LaysIf.some_map (declarationOrError_lays (fileDeclaration_lays hg) ?_ fun run => ?_)
    · rintro _ rfl
      simp
    · exact (fileDeclaration_inStep hg.inStep).onward_error (P := Anywhere) trivial run

/-- A file covers what it is read from. There is no placeholder in it if nothing goes wrong,
    and unless it starts with dependencies, only then. -/
theorem file_lays {s s' : Reading} {f : File} (run : file g s = .ok f s') :
    f.span = s'.spanFrom s.span.start ∧ ∃ cs, s.After cs s' ∧ Covers s s' cs f.node.children ∧
      (s.Sound s' → Node.AllWhole f.node.children) ∧
      (s.token?.any startsDependency = false → Node.AllWhole f.node.children → s.Sound s') := by
  obtain ⟨⟨⟨deps, ds⟩, place⟩, s₁, first, done⟩ := bind_ok.1 run
  obtain ⟨rfl, rfl⟩ := pure_ok.1 done
  obtain ⟨run, rfl⟩ := located_ok.1 first
  obtain ⟨deps', s₂, early, rest⟩ := bind_ok.1 run
  obtain ⟨ds', s₃, last, done⟩ := bind_ok.1 rest
  obtain ⟨eq, rfl⟩ := pure_ok.1 done
  obtain ⟨rfl, rfl⟩ := Prod.mk.inj eq
  obtain ⟨-, ns, hn, cs₂, after₂, -, covers₂, sound⟩ := declarations_lays hg s₂ _ _ trivial last
  obtain rfl : nodes _ = ns := hn
  obtain ⟨cs₁, after₁, covers₁⟩ := dependencies_cover early
  have whole : Node.AllWhole (nodes deps' ++ nodes ds') ↔ s₂.Sound s₃ := by
    rw [Node.allWhole_append, and_iff_right (Noded.allWhole deps'), sound]
  refine ⟨rfl, _, after₁.trans after₂,
    (covers₁.within (.refl s) after₂).append (covers₂.within after₁ (.refl _)),
    fun h => whole.2 ((after₁.sound_iff after₂).1 h).2, fun none h => ?_⟩
  rw [dependencies_none none] at early
  obtain rfl := (EStateM.Result.ok.inj early).2
  exact whole.1 h

end Files

end Grammar

end Mim
