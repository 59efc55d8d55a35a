import Mim.Proofs.Progress
import Mim.Proofs.Watch

/-! # The grammar keeps what is watched

Every rule reads something before it is done, so what is watched holds again behind it,
whatever was recorded at its first token. The rules that record something there are the ones
that are only taken where nothing has been recorded yet.
-/

namespace Mim

open Grammar

/-- What is nested keeps what is watched. -/
structure Watch.Nests (w : Watch) (g : Nested) : Prop where
  expr (least : Prec) : w.Reads (g.expr least)
  tuple (bracket : Bracket) :
    Keeps w.held (fun s => w.held s ∧ s.token? = some bracket.open_) w.fresh (g.tuple bracket)
  inStep {σ : Simulation} {m : Nat} : σ.Nests m g g

namespace Grammar

open Watch

variable {w : Watch} {g : Nested}

section Names

theorem identifier_reads : w.Reads identifier := by
  refine Keeps.peek fun t => ?_
  split
  · refine Keeps.look (fun _ => ⟨_, rfl⟩) fun _ => ?_
    exact (advance_keeps (by simp)).last
  · exact Keeps.unexpected And.left

/-- An identifier that is not there changes nothing. -/
theorem identifier?_keeps {before : Reading → Prop} (hb : ∀ {s}, before s → w.held s)
    (hf : ∀ {s}, w.fresh s → before s) : Keeps w.held before before identifier? := by
  refine Keeps.peek fun t => ?_
  split
  · exact (identifier_reads.weaken (fun hs => hb hs.1) hf).map
  · exact Keeps.pure And.left

theorem subtag_reads : w.Reads subtag := by
  refine Keeps.last (Keeps.located (identifier_reads.bind fun _ => Keeps.last (Keeps.many ?_)))
  exact accept_keeps (by simp) w.held_of_fresh identifier_reads.stays.map (Keeps.pure id)

theorem subtagList_reads : w.Reads subtagList := by
  refine (expect_reads (by simp)).bind fun _ => ?_
  refine (commaList_stays subtag_reads.stays).bind fun _ => ?_
  exact (expect_reads (by simp)).stays.last

theorem annex_reads : w.Reads annex := by
  refine Keeps.last (Keeps.located (Keeps.peek fun t => ?_))
  split
  · refine (advance_keeps (by simp)).bind fun _ => Keeps.look (fun _ => ⟨_, rfl⟩) fun _ => ?_
    refine Keeps.ite (Keeps.pure id) (Keeps.ite ?_ subtagList_reads.stays.last)
    exact Keeps.look (fun _ => ⟨_, rfl⟩) fun _ => Keeps.invalid w.held_of_fresh
  · exact Keeps.look (fun _ => ⟨_, rfl⟩) fun _ => Keeps.invalid And.left
  · exact Keeps.unexpected And.left

theorem name_reads : w.Reads name := by
  refine Keeps.look (fun s => ⟨_, annexAhead_run s⟩) fun _ => Keeps.ite annex_reads.last ?_
  refine Keeps.peek fun t => ?_
  split
  · exact (identifier_reads.weaken And.left id).last
  · exact Keeps.unexpected And.left

end Names

section Binders

variable (hg : w.Nests g)
include hg

theorem typed_reads : w.Reads (typed g) := by
  refine Keeps.last (Keeps.located (identifier_reads.bind fun _ => ?_))
  refine (expect_reads (by simp)).stays.bind fun _ => ?_
  exact (hg.expr .bottom).stays.last

theorem group_reads : w.Reads (group g) := by
  refine Keeps.last (Keeps.located ?_)
  refine (Keeps.many (identifier?_keeps id w.held_of_fresh)).bind fun _ => ?_
  exact (expect_reads (by simp)).bind fun _ => (hg.expr .bottom).stays.last

theorem pattern_reads : w.Reads (pattern g) := by
  refine Keeps.peek fun t => ?_
  split
  · exact hg.tuple .round
  · refine Keeps.weaken (Keeps.look (fun _ => ⟨_, rfl⟩) fun _ => ?_) And.left id
    exact Keeps.ite (typed_reads hg) identifier_reads.last
  · exact Keeps.unexpected And.left

theorem battern_reads (least : Prec) : w.Reads (battern g least) := by
  have type_ : w.Reads (do return Binder.type (← g.expr least)) := (hg.expr least).last
  refine Keeps.peek fun t => ?_
  split
  · exact hg.tuple .square
  · refine Keeps.weaken (Keeps.look (fun _ => ⟨_, rfl⟩) fun _ => ?_) And.left id
    exact Keeps.ite (typed_reads hg) type_
  · exact type_.weaken And.left id

theorem element_stays (bracket : Bracket) : w.Stays (element g bracket) := by
  refine Keeps.see (fun _ => groupAhead_run) fun ahead => ?_
  cases ahead with
  | true =>
      have next {s : Reading} (h : isGroupAhead (s.rest.map Item.token) = true) :
          s.token?.isSome := by
        obtain ⟨name, head⟩ := isIdent_of_isGroupAhead h
        simp only [List.head?_map] at head
        simp [Reading.token?, head]
      rw [if_pos rfl]
      refine Keeps.ite (group_reads hg).ahead ?_
      refine Keeps.weaken (note_ahead (T := fun t => t.isSome) rfl (fun _ h => h) ?_)
        (fun hs => ⟨hs.1, next hs.2⟩) id
      exact (group_reads hg).weaken And.left id
  | false =>
      cases bracket with
      | round => exact (pattern_reads hg).ahead
      | square | curly => exact (battern_reads hg .bottom).ahead

theorem tuple_keeps (bracket : Bracket) :
    Keeps w.held (fun s => w.held s ∧ s.token? = some bracket.open_) w.fresh (tuple g bracket) := by
  have opened : bracket.open_ ≠ .keyword .end_ := by cases bracket <;> simp [Bracket.open_]
  have closed : bracket.close ≠ .keyword .end_ := by cases bracket <;> simp [Bracket.close]
  refine Keeps.last (Keeps.located ((advance_keeps opened).bind fun _ => ?_))
  exact (commaList_stays (element_stays hg bracket)).bind fun _ => (expect_reads closed).stays.last

omit hg in
/-- At a name two choices are recorded: that it is a pattern, and that a colon after it is
    not its own. -/
theorem binderName_keeps {annotated : Bool} {p q : Parser Binder} (hp : w.Reads p)
    (hq : w.Reads q) :
    Keeps w.held (fun s => w.fresh s ∧ s.token?.isSome) w.fresh (do
      let place ← span
      note .patternOverBattern place
      if annotated then p
      else
        if ← colonFollows then note .typeToEnclosingForm place
        q) := by
  refine Keeps.of_run (q := fun t => do
    note .patternOverBattern t.span
    if annotated then p
    else
      if ← colonFollows then note .typeToEnclosingForm t.span
      q) (fun _ => rfl) fun t => ?_
  refine Keeps.bind (R := fun s => w.held s ∧ w.held (s.note .typeToEnclosingForm t.span))
    (Keeps.of_move (m := fun s => s.note .patternOverBattern t.span) (fun _ => ⟨_, rfl⟩) ?_)
    fun _ => ?_
  · rintro _ ⟨⟨fresh, next⟩, rfl⟩
    constructor
    · exact w.ahead [.patternOverBattern] fresh next (by decide) (by decide)
    · exact w.ahead [.patternOverBattern, .typeToEnclosingForm] fresh next (by decide)
        (by decide)
  · refine Keeps.ite (hp.weaken And.left id) (Keeps.look (fun _ => ⟨_, rfl⟩) fun _ => ?_)
    refine Keeps.ite (Keeps.bind (Keeps.of_move (fun _ => ⟨_, rfl⟩) And.right) fun _ => hq) ?_
    exact hq.weaken And.left id

theorem binder_stays (annotated : Bool) : w.Stays (binder g annotated) := by
  refine Keeps.peek fun t => ?_
  split
  · exact (pattern_reads hg).ahead
  · exact (battern_reads hg .pi).ahead
  · refine (binderName_keeps (pattern_reads hg) identifier_reads.last).weaken (fun hs => ?_) id
    exact ⟨hs.1, by simp [hs.2]⟩
  · have operand : w.Reads (do return Binder.type (← g.expr .pi)) := (hg.expr .pi).last
    exact Keeps.ite operand.ahead (Keeps.unexpected fun hs => w.held_of_fresh hs.1)
  · exact Keeps.unexpected fun hs => w.held_of_fresh hs.1

theorem domain_stays : w.Stays (domain g) := by
  have name : w.Reads (do return Binder.name (← identifier)) := identifier_reads.last
  refine Keeps.peek fun t => ?_
  split
  · exact (pattern_reads hg).ahead
  · exact (battern_reads hg .pi).ahead
  · exact (hg.tuple .curly).weaken (fun hs => ⟨w.held_of_fresh hs.1, hs.2⟩) id
  · refine Keeps.look (fun _ => ⟨_, rfl⟩) fun _ => Keeps.ite ?_ name.ahead
    exact note_ahead (T := (· = _)) rfl (by simp) (name.weaken And.left id)
  · have operand : w.Reads (do return Binder.type (← g.expr .union)) := (hg.expr .union).last
    exact Keeps.ite operand.ahead (Keeps.unexpected fun hs => w.held_of_fresh hs.1)
  · exact Keeps.unexpected fun hs => w.held_of_fresh hs.1

theorem domain?_stays : w.Stays (domain? g) := by
  refine Keeps.peek fun t => Keeps.weaken (P := w.fresh) ?_ And.left id
  split
  · exact Keeps.ite (domain_stays hg).map (Keeps.pure id)
  · exact Keeps.pure id

theorem piDomain_reads : w.Reads (piDomain g) :=
  sees_keeps (hg.tuple .curly) (battern_reads hg .pi)

end Binders

section Declarations

theorem curry_reads : w.Reads curry := by
  refine Keeps.peek fun t => ?_
  split
  · refine Keeps.look (fun _ => ⟨_, rfl⟩) fun _ => (advance_keeps (by simp)).bind fun _ => ?_
    exact Keeps.ite (Keeps.pure id) (Keeps.invalid w.held_of_fresh)
  · exact Keeps.unexpected And.left

theorem curryAndTrip_reads : w.Reads curryAndTrip :=
  curry_reads.bind fun _ => (after_stays (by simp) identifier_reads.stays).last

theorem axmOptions_stays : w.Stays axmOptions := by
  refine (identifier?_keeps w.held_of_fresh id).bind fun normalizer => ?_
  cases normalizer with
  | none => exact curryAndTrip_reads.stays.last
  | some _ => exact (after_stays (by simp) curryAndTrip_reads.stays).last

variable (hg : w.Nests g)
include hg

theorem anyExpr_reads : w.Reads (anyExpr g) := hg.expr .bottom

/-- What a marker introduces is an expression. -/
theorem afterExpr_stays {marker : Token} (ht : marker ≠ .keyword .end_) (least : Prec) :
    w.Stays (after marker (g.expr least)) := after_stays ht (hg.expr least).stays

theorem axm_reads : w.Reads (axm g) := by
  refine (expect_reads (by simp)).bind fun _ => annex_reads.stays.bind fun _ => ?_
  refine (expect_reads (by simp)).stays.bind fun _ => (anyExpr_reads hg).stays.bind fun _ => ?_
  refine (after_stays (by simp) axmOptions_stays).bind fun options => ?_
  cases options with
  | none => exact Keeps.pure id
  | some _ => exact Keeps.pure id

theorem cfun_reads : w.Reads (cfun g) := by
  have codomain (domain : Binder) : w.Stays (do
      expect (.symbol .colon)
      return DeclForm.cfun domain (← anyExpr g)) :=
    (expect_reads (by simp)).stays.bind fun _ => (anyExpr_reads hg).stays.last
  have type_ : w.Reads (g.expr .pi >>= fun ty => do
      let domain ← pure (Binder.type ty)
      expect (.symbol .colon)
      return DeclForm.cfun domain (← anyExpr g)) :=
    Keeps.bind (hg.expr .pi) fun _ => (Keeps.pure id).bind codomain
  refine (expect_reads (by simp)).bind fun _ => sees_keeps ?_ ?_
  · exact (battern_reads hg .pi).ahead.bind codomain
  · refine Keeps.see identifierAhead_run fun name => Keeps.look (fun _ => ⟨_, rfl⟩) fun colon => ?_
    split
    · next both =>
        refine note_ahead (T := fun t => t.any isGroupAhead.isIdent = name) rfl ?_ ?_
        · rintro (_ | t) rfl
          · cases both
          · rfl
        · exact type_.weaken And.left id
    · exact type_.ahead

theorem ccon_reads : w.Reads (ccon g) :=
  (expect_reads (by simp)).bind fun _ => (battern_reads hg .pi).stays.last

theorem let_reads : w.Reads (let_ g) := by
  refine (expect_reads (by simp)).bind fun _ => Keeps.look (fun s => ⟨_, annexAhead_run s⟩) fun _ => ?_
  refine Keeps.ite (annex_reads.stays.bind fun _ => ?_) ((binder_stays hg true).bind fun _ => ?_)
  all_goals exact (expect_reads (by simp)).stays.bind fun _ => (anyExpr_reads hg).stays.last

/-- A filter sign ends the domain in front of it. -/
theorem param_stays : w.Stays (param g) := by
  refine Keeps.last (Keeps.located ((domain_stays hg).bind fun domain => ?_))
  have filter : Keeps w.held (fun s => w.held s ∧ s.token? = some (.symbol .atSign)) w.fresh
      (do advance; return (domain, some (← g.expr .union))) :=
    (advance_keeps (by simp)).bind fun _ => (hg.expr .union).stays.last
  refine sees_keeps ?_ (Keeps.pure id)
  cases domain with
  | type => exact note_ahead (T := (· = _)) rfl (by simp) filter
  | name | typed | group | tuple => exact filter.weaken (fun hs => ⟨w.held_of_fresh hs.1, hs.2⟩) id

theorem param?_stays : w.Stays (param? g) := by
  refine Keeps.peek fun t => Keeps.weaken (P := w.fresh) ?_ And.left id
  split
  · exact Keeps.ite (param_stays hg).map (Keeps.pure id)
  · exact Keeps.pure id

theorem lam_reads : w.Reads (lam g) := by
  refine Keeps.last (Keeps.located (Keeps.peek fun t => ?_))
  split
  · exact Keeps.unexpected And.left
  · next kind hk =>
      obtain ⟨token, rfl, hk⟩ := Option.bind_eq_some_iff.1 hk
      have inside : token ≠ .keyword .end_ := by
        rintro rfl
        cases hk
      refine (advance_keeps inside).bind fun _ => accept_keeps (by simp) w.held_of_fresh ?_ ?_
      all_goals
        refine name_reads.stays.bind fun _ => (param?_stays hg).many.bind fun _ => ?_
        refine (afterExpr_stays hg (by simp) .bottom).bind fun _ => ?_
        exact (afterExpr_stays hg (by simp) .bottom).last

theorem recBinding_reads : w.Reads (recBinding g) := by
  refine Keeps.last (Keeps.located (name_reads.bind fun _ => ?_))
  refine (afterExpr_stays hg (by simp) .bottom).bind fun _ => ?_
  exact (expect_reads (by simp)).stays.bind fun _ => (anyExpr_reads hg).stays.last

theorem nextRecBinding?_stays : w.Stays (nextRecBinding? g) :=
  Keeps.look (fun _ => ⟨_, rfl⟩) fun _ =>
    Keeps.ite (Keeps.pure id) (after_stays (by simp) (recBinding_reads hg).stays)

theorem rec_reads : w.Reads (rec_ g) := by
  refine (expect_reads (by simp)).bind fun _ => ?_
  refine (many1_stays (recBinding_reads hg).stays (nextRecBinding?_stays hg)).bind fun _ => ?_
  exact (after_stays (by simp) (lam_reads hg).stays).last

theorem rule_reads : w.Reads (rule g) := by
  have body (kind : RuleKind) : w.Stays (do
      let binder ← binder g false
      expect (.symbol .colon)
      let lhs ← anyExpr g
      let guard ← after (.keyword .when_) (anyExpr g)
      expect (.symbol .fatArrow)
      return DeclForm.rule kind binder lhs guard (← anyExpr g)) := by
    refine (binder_stays hg false).bind fun _ => (expect_reads (by simp)).stays.bind fun _ => ?_
    refine (anyExpr_reads hg).stays.bind fun _ => (afterExpr_stays hg (by simp) .bottom).bind fun _ => ?_
    exact (expect_reads (by simp)).stays.bind fun _ => (anyExpr_reads hg).stays.last
  refine accept_keeps (by simp) id ((Keeps.pure id).bind fun kind => body kind) ?_
  exact (expect_reads (by simp)).bind fun _ => (Keeps.pure id).bind fun kind => body kind

theorem declForm_reads : w.Reads (declForm g) := by
  refine Keeps.peek fun t => Keeps.weaken (P := w.held) ?_ And.left id
  split
  · exact axm_reads hg
  · exact cfun_reads hg
  · exact ccon_reads hg
  · exact let_reads hg
  · exact rec_reads hg
  · exact (lam_reads hg).map
  · exact (lam_reads hg).map
  · exact (lam_reads hg).map
  · exact rule_reads hg
  · exact rule_reads hg
  · exact Keeps.unexpected id

theorem declaration_reads : w.Reads (declaration g) :=
  Keeps.look (fun _ => ⟨_, rfl⟩) fun _ => Keeps.last (Keeps.located (declForm_reads hg))

end Declarations

section Operands

variable (hg : w.Nests g)
include hg

/-- A literal is read together with the colon after it, and only then is that recorded. -/
theorem literal_keeps (least : Prec) (value : Literal) :
    Keeps w.held (fun s => w.held s ∧ s.token? = some (.literal value)) w.fresh
      (literal g least value) := by
  refine Keeps.of_run (q := fun t => do
    advance
    if ← accept (.symbol .colon) then
      if .ascription < least then note .typeToLiteral t.span
      return .ascribed value t.span (← anyExpr g)
    else return .literal value) (fun _ => rfl) fun t => ?_
  refine Keeps.bind
    (R := fun s => w.held t ∧ t.token? = some (.literal value) ∧ s = t.advance)
    (Keeps.of_move (fun _ => ⟨_, rfl⟩) ?_) fun _ => Keeps.accept ?_ (Keeps.pure ?_)
  · rintro _ ⟨⟨held, next⟩, rfl⟩
    exact ⟨held, next, rfl⟩
  · rw [if_pos rfl]
    refine Keeps.ite ?_ ((anyExpr_reads hg).stays.last.weaken ?_ id)
    · refine Keeps.bind (Keeps.of_move (fun _ => ⟨_, rfl⟩) ?_) fun _ => (anyExpr_reads hg).stays.last
      rintro _ ⟨_, ⟨held, next, rfl⟩, colon, rfl⟩
      exact w.literal held next colon
    · rintro _ ⟨_, ⟨held, next, rfl⟩, colon, rfl⟩
      exact w.advance (w.held_of_fresh (w.advance held next (by simp))) colon (by simp)
  · rintro _ ⟨held, next, rfl⟩
    exact w.advance held next (by simp)

omit hg in
theorem annexOperand_keeps (path : AnnexPath) :
    Keeps w.held (fun s => w.held s ∧ s.token? = some (.annex path)) w.fresh
      (annexOperand path) := by
  refine Keeps.bind
    (R := fun s => ∃ t, w.held t ∧ t.token? = some (.annex path) ∧ s = t.advance)
    (Keeps.of_move (fun _ => ⟨_, rfl⟩) fun hs => ⟨_, hs.1, hs.2, rfl⟩) fun _ => ?_
  refine sees_keeps (Keeps.of_move (fun _ => ⟨_, rfl⟩) ?_) (Keeps.pure ?_)
  · rintro _ ⟨⟨t, held, next, rfl⟩, paren⟩
    exact w.annex held next paren
  · rintro _ ⟨t, held, next, rfl⟩
    exact w.advance held next (by simp)

theorem blockDeclaration?_keeps : Keeps w.held w.held w.held (blockDeclaration? g) := by
  refine Keeps.peek fun t => Keeps.weaken (P := w.held) ?_ And.left id
  split
  · refine Keeps.ite (Keeps.weaken ?_ id w.held_of_fresh) (Keeps.pure id)
    exact (declaration_reads hg).bind fun _ => (discard_stays (by simp)).last
  · exact Keeps.pure id

theorem block_reads : w.Reads (block g) :=
  (Keeps.many (blockDeclaration?_keeps hg)).bind fun _ => (anyExpr_reads hg).last

theorem bracketed_keeps :
    Keeps w.held (fun s => w.held s ∧ s.token? = some (.symbol .leftBracket)) w.fresh
      (bracketed g) := by
  refine (tuple_keeps hg .square).bind fun _ => (afterExpr_stays hg (by simp) .arrow).bind fun codomain => ?_
  cases codomain with
  | some _ => exact Keeps.pure id
  | none => exact (after_stays (by simp) name_reads.stays).last

theorem implicitPi_keeps :
    Keeps w.held (fun s => w.held s ∧ s.token? = some (.symbol .leftBrace)) w.fresh
      (implicitPi g) :=
  (tuple_keeps hg .curly).bind fun _ => (expect_reads (by simp)).stays.bind fun _ =>
    (hg.expr .arrow).stays.last

theorem cnType_reads : w.Reads (cnType g) :=
  (expect_reads (by simp)).bind fun _ => (piDomain_reads hg).stays.last

theorem fnType_reads : w.Reads (fnType g) := by
  refine (expect_reads (by simp)).bind fun _ => (piDomain_reads hg).stays.bind fun _ => ?_
  exact (afterExpr_stays hg (by simp) .arrow).last

theorem lm_reads : w.Reads (lm g) := by
  refine (expect_reads (by simp)).bind fun _ => ?_
  refine (many1_stays (domain_stays hg) (domain?_stays hg)).bind fun _ => ?_
  refine (afterExpr_stays hg (by simp) .bottom).bind fun _ => ?_
  exact (expect_reads (by simp)).stays.bind fun _ => (anyExpr_reads hg).stays.last

theorem pattern?_stays : w.Stays (pattern? g) := by
  refine Keeps.peek fun t => ?_
  split
  · exact (pattern_reads hg).ahead.map
  · exact (pattern_reads hg).ahead.map
  · exact Keeps.pure And.left

theorem cn_reads : w.Reads (cn g) := by
  refine (expect_reads (by simp)).bind fun _ => ?_
  refine (many1_stays (pattern_reads hg).stays (pattern?_stays hg)).bind fun _ => ?_
  exact (expect_reads (by simp)).stays.bind fun _ => (anyExpr_reads hg).stays.last

theorem insert_reads : w.Reads (insert g) := by
  refine (expect_reads (by simp)).bind fun _ => (expect_reads (by simp)).stays.bind fun _ => ?_
  refine (anyExpr_reads hg).stays.bind fun _ => (expect_reads (by simp)).stays.bind fun _ => ?_
  refine (anyExpr_reads hg).stays.bind fun _ => (expect_reads (by simp)).stays.bind fun _ => ?_
  exact (anyExpr_reads hg).stays.bind fun _ => (expect_reads (by simp)).stays.last

theorem ret_reads : w.Reads (ret g) := by
  refine (expect_reads (by simp)).bind fun _ => (binder_stays hg true).bind fun _ => ?_
  refine (expect_reads (by simp)).stays.bind fun _ => (anyExpr_reads hg).stays.bind fun _ => ?_
  refine (expect_reads (by simp)).stays.bind fun _ => (anyExpr_reads hg).stays.bind fun _ => ?_
  exact (expect_reads (by simp)).stays.bind fun _ => (anyExpr_reads hg).stays.last

theorem uniq_reads : w.Reads (uniq g) :=
  (expect_reads (by simp)).bind fun _ => (anyExpr_reads hg).stays.bind fun _ =>
    (expect_reads (by simp)).stays.last

theorem array_reads : w.Reads (array g) := by
  refine (expect_reads (by simp)).bind fun _ => (anyExpr_reads hg).stays.bind fun _ => ?_
  refine (after_stays (by simp) (commaList_stays (anyExpr_reads hg).stays)).bind fun _ => ?_
  refine (expect_reads (by simp)).stays.bind fun _ => (anyExpr_reads hg).stays.bind fun _ => ?_
  exact (expect_reads (by simp)).stays.last

theorem pack_reads : w.Reads (pack g) := by
  refine (expect_reads (by simp)).bind fun _ => (anyExpr_reads hg).stays.bind fun _ => ?_
  refine (expect_reads (by simp)).stays.bind fun _ => (anyExpr_reads hg).stays.bind fun _ => ?_
  exact (expect_reads (by simp)).stays.last

theorem parenthesized_reads : w.Reads (parenthesized g) := by
  refine (expect_reads (by simp)).bind fun _ => ?_
  refine (commaList_stays (anyExpr_reads hg).stays).bind fun _ => ?_
  exact (expect_reads (by simp)).stays.last

theorem arm_stays : w.Stays (arm g) := by
  refine Keeps.last (Keeps.located ((binder_stays hg true).bind fun _ => ?_))
  exact (expect_reads (by simp)).stays.bind fun _ => (anyExpr_reads hg).stays.last

theorem firstArm?_stays : w.Stays (firstArm? g) := by
  refine Keeps.peek fun t => Keeps.weaken (P := w.fresh) ?_ And.left id
  split
  · exact Keeps.ite (arm_stays hg).map (Keeps.pure id)
  · exact Keeps.pure id

theorem match_reads : w.Reads (match_ g) := by
  refine (expect_reads (by simp)).bind fun _ => (anyExpr_reads hg).stays.bind fun _ => ?_
  refine (expect_reads (by simp)).stays.bind fun _ => (firstArm?_stays hg).bind fun _ => ?_
  exact (Keeps.many (after_stays (by simp) (arm_stays hg))).last

theorem operandForm_reads (least : Prec) : w.Reads (operandForm g least) := by
  refine Keeps.peek fun t => ?_
  split
  · exact (advance_keeps (by simp)).last
  · exact (advance_keeps (by simp)).last
  · exact annexOperand_keeps _
  · exact literal_keeps hg least _
  · exact bracketed_keeps hg
  · exact implicitPi_keeps hg
  · exact (cnType_reads hg).weaken And.left id
  · exact (fnType_reads hg).weaken And.left id
  · exact (lm_reads hg).weaken And.left id
  · exact (cn_reads hg).weaken And.left id
  · exact (insert_reads hg).weaken And.left id
  · exact (ret_reads hg).weaken And.left id
  · exact (uniq_reads hg).weaken And.left id
  · exact (array_reads hg).weaken And.left id
  · exact (pack_reads hg).weaken And.left id
  · exact (parenthesized_reads hg).weaken And.left id
  · exact (match_reads hg).weaken And.left id
  · exact (advance_keeps (by simp)).last
  · exact Keeps.look (fun _ => ⟨_, rfl⟩) fun _ => Keeps.invalid And.left
  · exact Keeps.ite ((block_reads hg).weaken And.left id) (Keeps.unexpected And.left)
  · exact Keeps.unexpected And.left

theorem operand_reads (least : Prec) : w.Reads (operand g least) :=
  Keeps.last (Keeps.located (operandForm_reads hg least))

end Operands

section Expressions

variable (hg : w.Nests g)
include hg

/-- An operator is read with its token, if it has one of its own. -/
theorem infixForm_keeps (lhs : Expr) (op : Operator) :
    Keeps w.held (fun s => w.fresh s ∧ s.token?.bind Operator.ofToken? = some op) w.fresh
      (infixForm g lhs op) := by
  have sign {t : Token} (ht : op.sign? = some t) {s : Reading}
      (ahead : s.token?.bind Operator.ofToken? = some op) : s.token? = some t := by
    obtain ⟨u, next, hu⟩ := Option.bind_eq_some_iff.1 ahead
    have juxtaposed : op ≠ .application := by
      rintro rfl
      cases ht
    rw [next, ← Operator.sign?_of_ofToken? hu juxtaposed, ht]
  cases op with
  | where_ =>
      refine Keeps.bind (Keeps.of_move (fun _ => ⟨_, rfl⟩) fun hs => ?_) fun _ =>
        (w.whereBody hg.inStep (declaration_reads hg)).last
      exact ⟨_, w.held_of_fresh hs.1, sign rfl hs.2, rfl⟩
  | arrow | injection | explicitApplication | extraction =>
      refine Keeps.bind ?_ fun _ => (hg.expr _).stays.last
      refine Keeps.of_move (fun _ => ⟨_, rfl⟩) fun hs => ?_
      exact w.advance (w.held_of_fresh hs.1) (sign rfl hs.2) (by simp)
  | application => exact (hg.expr _).ahead.last
  | union =>
      have others : w.Stays (many (after (.symbol .union) (infixForm.right g .union))) :=
        Keeps.many (afterExpr_stays hg (by simp) _)
      exact (others.weaken And.left id).last

theorem extend?_stays (least : Prec) (lhs : Expr) : w.Stays (extend? g least lhs) := by
  refine Keeps.moved (fun _ => operator?_run) fun op => ?_
  have noted {s : Reading} : (∃ t, w.fresh t ∧ t.operator? = op ∧ s = t.noted) → w.fresh s := by
    rintro ⟨t, fresh, -, rfl⟩
    exact w.noted fresh
  cases op with
  | none => exact Keeps.pure noted
  | some op =>
      refine Keeps.ite (Keeps.pure noted) (Keeps.map (Keeps.bind (R := w.fresh) ?_ fun _ => ?_))
      · refine (infixForm_keeps hg lhs op).weaken (fun hs => ⟨noted hs, ?_⟩) id
        obtain ⟨t, -, ahead, rfl⟩ := hs
        rw [Reading.token?, t.rest_noted]
        exact Reading.ofToken?_of_operator? ahead
      · exact Keeps.look (fun _ => ⟨_, rfl⟩) fun _ => Keeps.pure id

theorem expr_reads (least : Prec) : w.Reads (expr g least) :=
  (operand_reads hg least).bind fun _ => Keeps.grow (extend?_stays hg least)

end Expressions

section Files

theorem dependency_reads : w.Reads dependency := by
  have name (kind : DependencyKind) : w.Stays (do
      let name ← identifier
      expect (.symbol .semicolon)
      return (kind, name)) :=
    identifier_reads.stays.bind fun _ => (expect_reads (by simp)).stays.last
  refine Keeps.last (Keeps.located (accept_keeps (by simp) id ?_ ?_))
  · exact (Keeps.pure id).bind name
  · exact (expect_reads (by simp)).bind fun _ => (Keeps.pure id).bind name

theorem fileDeclaration_reads (hg : w.Nests g) : w.Reads (fileDeclaration g) := by
  have read : w.Reads (do
      let d ← declaration g
      discard (accept (.symbol .semicolon))
      return d) := (declaration_reads hg).bind fun _ => (discard_stays (by simp)).last
  refine Keeps.look (fun s => ⟨_, dependencyAhead_run⟩) fun late => Keeps.ite ?_ read
  exact Keeps.look (fun _ => ⟨_, rfl⟩) fun _ => Keeps.bind (R := w.held) (Keeps.invalid id) fun _ => read

end Files

end Grammar

/-- Whatever is nested keeps what is watched, at any depth. -/
theorem Watch.nests_upTo (w : Watch) (n : Nat) : w.Nests (Nested.upTo n) := by
  induction n with
  | zero => exact ⟨fun _ => Keeps.unexpected id, fun _ => Keeps.unexpected And.left, nests_self⟩
  | succ n ih => exact ⟨expr_reads ih, tuple_keeps ih, nests_self⟩

end Mim
