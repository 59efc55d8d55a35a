import Mim.Grammar.File

/-! # Running the steps of the grammar

What each step that the grammar is made of does to a reading, as equations: the
steps that only look leave the reading alone, and `accept` and `expect` move on by
one token or stay.
-/

namespace Mim.Grammar

variable {α β : Type} {s s' : Reading}

theorem bind_ok {p : Parser α} {f : α → Parser β} {b : β} :
    (p >>= f) s = .ok b s' ↔ ∃ a s₁, p s = .ok a s₁ ∧ f a s₁ = .ok b s' := by
  change EStateM.bind p f s = _ ↔ _
  unfold EStateM.bind
  cases p s <;> simp [and_assoc]

theorem bind_error {p : Parser α} {f : α → Parser β} {e : ParseError} :
    (p >>= f) s = .error e s' ↔ p s = .error e s' ∨ ∃ a s₁, p s = .ok a s₁ ∧ f a s₁ = .error e s' := by
  change EStateM.bind p f s = _ ↔ _
  unfold EStateM.bind
  cases p s <;> simp [and_assoc]

theorem bind_of_ok {p : Parser α} {f : α → Parser β} {a : α} {s₁ : Reading}
    (h : p s = .ok a s₁) : (p >>= f) s = f a s₁ := by
  change EStateM.bind p f s = _
  simp only [EStateM.bind, h]

theorem bind_of_error {p : Parser α} {f : α → Parser β} {e : ParseError}
    (h : p s = .error e s') : (p >>= f) s = .error e s' := by
  change EStateM.bind p f s = _
  simp only [EStateM.bind, h]

theorem bind_congr {p q : Parser α} {f : α → Parser β} (h : p s = q s') :
    (p >>= f) s = (q >>= f) s' := by
  change EStateM.bind p f s = EStateM.bind q f s'
  simp only [EStateM.bind, h]

theorem pure_ok {a b : α} : (pure a : Parser α) s = .ok b s' ↔ a = b ∧ s = s' := by
  change EStateM.Result.ok a s = _ ↔ _
  simp

theorem map_eq_bind (f : α → β) (p : Parser α) : f <$> p = p >>= fun a => pure (f a) := by
  funext s
  change EStateM.map f p s = EStateM.bind p _ s
  unfold EStateM.map EStateM.bind
  cases p s <;> rfl

theorem discard_eq_bind (p : Parser α) : discard p = p >>= fun _ => pure () := map_eq_bind _ p

theorem peek_bind (f : Option Token → Parser α) : (peek >>= f) s = f s.token? s := rfl

theorem peekAt_bind (n : Nat) (f : Option Token → Parser α) :
    (peekAt n >>= f) s = f (s.tokenAt? n) s := rfl

theorem span_bind (f : Span → Parser α) : (span >>= f) s = f s.span s := rfl

theorem sees_bind (t : Token) (f : Bool → Parser α) :
    (sees t >>= f) s = f (s.token? == some t) s := rfl

theorem get_bind (f : Reading → Parser α) : ((get : Parser Reading) >>= f) s = f s s := rfl

theorem note_bind (rule : TieBreak) (place : Span) (f : Unit → Parser α) :
    (note rule place >>= f) s = f () (s.note rule place) := rfl

theorem advance_bind (f : Unit → Parser α) : (advance >>= f) s = f () s.advance := rfl

theorem accept_run (t : Token) :
    accept t s = if s.token? = some t then .ok true s.advance else .ok false s := by
  have h : accept t s = (if (s.token? == some t) = true then do advance; return true
    else return false : Parser Bool) s := rfl
  rw [h]
  by_cases hs : s.token? = some t
  · simp [hs]; rfl
  · simp [hs]; rfl

theorem expect_run (t : Token) :
    expect t s = if s.token? = some t then .ok () s.advance
      else .error (s.mismatch ("'" ++ t.display ++ "'")) s := by
  unfold expect
  by_cases hs : s.token? = some t
  · have taken : accept t s = .ok true s.advance := by simp [accept_run, hs]
    rw [bind_of_ok taken]
    simp [hs]; rfl
  · have left : accept t s = .ok false s := by simp [accept_run, hs]
    rw [bind_of_ok left]
    simp [hs]; rfl

theorem accept_ok {t : Token} {b : Bool} :
    accept t s = .ok b s' ↔
      b = true ∧ s.token? = some t ∧ s' = s.advance ∨
      b = false ∧ s.token? ≠ some t ∧ s' = s := by
  rw [accept_run]
  by_cases h : s.token? = some t <;> simp [h, eq_comm]

theorem expect_ok {t : Token} :
    expect t s = .ok () s' ↔ s.token? = some t ∧ s' = s.advance := by
  rw [expect_run]
  by_cases h : s.token? = some t <;> simp [h, eq_comm]

theorem located_ok {p : Parser α} {r : α × Span} :
    located p s = .ok r s' ↔ p s = .ok r.1 s' ∧ r.2 = s'.spanFrom s.span.start := by
  unfold located
  rw [span_bind, bind_ok]
  constructor
  · rintro ⟨a, s₁, run, done⟩
    rw [get_bind] at done
    obtain ⟨rfl, rfl⟩ := pure_ok.1 done
    exact ⟨run, rfl⟩
  · rintro ⟨run, hr⟩
    refine ⟨r.1, s', run, ?_⟩
    rw [get_bind, ← hr]
    rfl

theorem after_ok {marker : Token} {p : Parser α} {r : Option α} :
    after marker p s = .ok r s' ↔
      s.token? = some marker ∧ (∃ a, r = some a ∧ p s.advance = .ok a s') ∨
      s.token? ≠ some marker ∧ r = none ∧ s' = s := by
  unfold after
  rw [bind_ok]
  constructor
  · rintro ⟨b, s₁, first, rest⟩
    rcases accept_ok.1 first with ⟨rfl, ht, rfl⟩ | ⟨rfl, ht, rfl⟩
    · change (some <$> p) s.advance = .ok r s' at rest
      rw [map_eq_bind] at rest
      obtain ⟨a, s₂, run, done⟩ := bind_ok.1 rest
      obtain ⟨rfl, rfl⟩ := pure_ok.1 done
      exact .inl ⟨ht, a, rfl, run⟩
    · obtain ⟨rfl, rfl⟩ := pure_ok.1 rest
      exact .inr ⟨ht, rfl, rfl⟩
  · rintro (⟨ht, a, rfl, run⟩ | ⟨ht, rfl, rfl⟩)
    · refine ⟨true, s.advance, accept_ok.2 (.inl ⟨rfl, ht, rfl⟩), ?_⟩
      change (some <$> p) s.advance = _
      rw [map_eq_bind]
      exact bind_ok.2 ⟨a, s', run, rfl⟩
    · exact ⟨false, s', accept_ok.2 (.inr ⟨rfl, ht, rfl⟩), rfl⟩

theorem after_run (marker : Token) (p : Parser α) (s : Reading) :
    after marker p s = (if s.token?.any (· == marker) then
      some <$> (expect marker >>= fun _ => p) else pure none) s := by
  unfold after
  by_cases ht : s.token? = some marker
  · rw [bind_of_ok (accept_ok.2 (.inl ⟨rfl, ht, rfl⟩)), ht]
    simp only [Option.any_some, beq_self_eq_true, if_true]
    rw [map_eq_bind, map_eq_bind, bind_assoc, bind_of_ok (expect_ok.2 ⟨ht, rfl⟩)]
  · rw [bind_of_ok (accept_ok.2 (.inr ⟨rfl, ht, rfl⟩))]
    have no : s.token?.any (· == marker) = false := by
      cases hs : s.token? with
      | none => rfl
      | some t => simpa [hs] using ht
    rw [no]
    rfl

theorem recovering_ok {inWhere : Bool} {p : Parser α} {a : α} (h : p s = .ok a s') :
    recovering inWhere p s = .ok (.ok a) s' := by
  change EStateM.Result.ok _ _ = _
  simp only [h]

theorem recovering_error {inWhere : Bool} {p : Parser α} {e : ParseError} (h : p s = .error e s') :
    recovering inWhere p s =
      .ok (.error ((s'.report e).recover inWhere s).1) ((s'.report e).recover inWhere s).2 := by
  change EStateM.Result.ok _ _ = _
  simp only [h]

/-! What the two lookaheads of unbounded length see is told from the tokens alone. -/

/-- Whether two or more identifiers and a colon come first. -/
def isGroupAhead (ts : List Token) : Bool :=
  2 ≤ (ts.takeWhile isIdent).length && (ts.dropWhile isIdent).head? == some (.symbol .colon)
where
  isIdent : Token → Bool
    | .ident _ => true
    | _ => false

/-- Whether a parenthesis with only what may stand in a subtag list comes first. -/
def isSubtagListAhead : List Token → Bool
  | .symbol .leftParen :: ts =>
    !(ts.takeWhile isSubtagToken).isEmpty &&
      (ts.dropWhile isSubtagToken).head? == some (.symbol .rightParen)
  | _ => false

theorem isIdent_of_isGroupAhead {ts : List Token} (h : isGroupAhead ts) :
    ∃ name, ts.head? = some (.ident name) := by
  cases ts with
  | nil => cases h
  | cons t ts =>
      cases t with
      | ident name => exact ⟨name, rfl⟩
      | _ => cases h

theorem leftParen_of_isSubtagListAhead {ts : List Token} (h : isSubtagListAhead ts) :
    ts.head? = some (.symbol .leftParen) := by
  unfold isSubtagListAhead at h
  split at h
  · rfl
  · cases h

theorem groupAhead_run : groupAhead s = .ok (isGroupAhead (s.rest.map Item.token)) s := by
  unfold isGroupAhead
  rw [List.takeWhile_map, List.length_map, List.dropWhile_map, List.head?_map]
  rfl

theorem subtagListAhead_eq (is : List Item) :
    subtagListAhead is = isSubtagListAhead (is.map Item.token) := by
  unfold subtagListAhead
  split
  · simp only [List.map_cons, isSubtagListAhead, List.takeWhile_map, List.dropWhile_map,
      List.head?_map, List.isEmpty_map, Function.comp_def]
  · next h =>
      match is, h with
      | [], _ => rfl
      | ⟨t, place, doc⟩ :: is, h =>
          have ht : t ≠ .symbol .leftParen := fun ht => h place doc is (by rw [ht])
          simp only [List.map_cons]
          unfold isSubtagListAhead
          split
          · next e => exact absurd (List.cons.inj e).1 ht
          · rfl

def startsDependency : Token → Bool
  | .keyword .import_ | .keyword .plugin => true
  | _ => false

theorem startsDependency_cases {t : Token} (h : startsDependency t) :
    t = .keyword .import_ ∨ t = .keyword .plugin := by
  unfold startsDependency at h
  split at h
  · exact .inl rfl
  · exact .inr rfl
  · cases h

theorem dependencyAhead_run : dependencyAhead s = .ok (s.token?.any startsDependency) s := by
  unfold dependencyAhead
  rw [peek_bind]
  unfold startsDependency
  rcases s.token? with _ | ⟨⟨⟩⟩ | _ <;> rfl

/-- Whether a token is an annex, even a broken one. -/
def isAnnex : Token → Bool
  | .annex _ | .percent => true
  | _ => false

theorem annexAhead_run (s : Reading) : annexAhead s = .ok (s.token?.any isAnnex) s := by
  unfold annexAhead
  rw [peek_bind]
  cases s.token? with
  | none => rfl
  | some t => cases t <;> rfl

theorem identifierAhead_run (s : Reading) :
    cfun.identifierAhead s = .ok (s.token?.any isGroupAhead.isIdent) s := by
  unfold cfun.identifierAhead
  rw [peek_bind]
  cases s.token? with
  | none => rfl
  | some t => cases t <;> rfl

end Mim.Grammar

namespace Mim.Reading

variable {s : Reading} {t : Token}

theorem token?_eq_none : s.token? = none ↔ s.rest = [] := by
  simp [token?, List.head?_eq_none_iff]

theorem token?_eq_some : s.token? = some t ↔ ∃ i rest, s.rest = i :: rest ∧ i.token = t := by
  cases h : s.rest <;> simp [token?, h]

theorem advance_eq {i : Item} {rest : List Item} (h : s.rest = i :: rest) :
    s.advance = { s with rest, lastEnd := i.span.stop } := by
  simp only [advance, h]

theorem advance_end (h : s.rest = []) : s.advance = s := by
  rw [advance, h]

theorem length_advance (h : s.token? = some t) :
    s.advance.rest.length + 1 = s.rest.length := by
  obtain ⟨i, rest, hs, -⟩ := token?_eq_some.1 h
  simp [advance, hs]

/-- What an error that ends a reading is about: broken text that comes next, which is not
    reported a second time, a token at a marked place, or the end of the input. -/
inductive Blames (s : Reading) (marks : Span → Prop) (e : ParseError) : Prop where
  | broken {reason : LexError} : e.isReported → s.token? = some (.error reason) → Blames s marks e
  | token : e.isReported = false → marks e.span → Blames s marks e
  | stop {expected : String} :
    s.token? = none → e = ⟨.unexpectedEnd expected, s.span⟩ → Blames s marks e

theorem blames_mismatch {marks : Span → Prop} (expected : String)
    (h : ∀ t, s.token? = some t → (∀ reason, t ≠ .error reason) → marks s.span) :
    s.Blames marks (s.mismatch expected) := by
  unfold mismatch
  split
  · next stop => exact .stop stop rfl
  · next broken => exact .broken rfl broken
  · next found whole token => exact .token rfl (h found token whole)

/-- What is left when all up to a boundary is passed over. -/
def skip (inWhere : Bool) (s : Reading) : Reading :=
  let (lastEnd, rest) := skipItems inWhere s.lastEnd s.rest
  { s with lastEnd, rest }

theorem skip_of_none {inWhere : Bool} (h : s.token? = none) : s.skip inWhere = s := by
  obtain ⟨rest, lastEnd, recorded⟩ := s
  obtain rfl : rest = [] := token?_eq_none.1 h
  rfl

theorem skip_of_some {inWhere : Bool} (h : s.token? = some t) :
    s.skip inWhere =
      if t = .symbol .semicolon then s.advance
      else if t.isBoundary inWhere then s else s.advance.skip inWhere := by
  obtain ⟨rest, lastEnd, recorded⟩ := s
  obtain ⟨i, rest, rfl, rfl⟩ := token?_eq_some.1 h
  simp only [skip, skipItems, advance]
  split
  · rfl
  · split <;> rfl

/-- Recovery reads one token at least. -/
theorem recover_eq {inWhere : Bool} (s start : Reading) :
    s.recover inWhere start =
      let s' := (if s.rest.length = start.rest.length then s.advance else s).skip inWhere
      (s'.spanFrom start.span.start, s') := rfl

/-- Nothing is recorded while tokens are passed over. -/
theorem recorded_recover {inWhere : Bool} (s start : Reading) :
    (s.recover inWhere start).2.recorded = s.recorded := by
  rw [recover_eq, skip]
  dsimp only
  split
  · unfold advance
    split <;> rfl
  · rfl

/-- Recovery reads the broken text that it begins at. -/
theorem recover_broken {inWhere : Bool} {start : Reading} {reason : LexError}
    (h : s.token? = some (.error reason)) :
    (s.recover inWhere start).2 = s.advance.skip inWhere := by
  rw [recover_eq]
  dsimp only
  split
  · rfl
  · rw [skip_of_some h, if_neg nofun, if_neg (by cases inWhere <;> exact Bool.false_ne_true)]

/-- The operator that comes next; a declaration keyword is none. -/
def operator? (s : Reading) : Option Operator :=
  s.token?.bind fun t => if t.startsDeclaration then none else Operator.ofToken? t

theorem ofToken?_of_operator? {op : Operator} (h : s.operator? = some op) :
    s.token?.bind Operator.ofToken? = some op := by
  cases ht : s.token? with
  | none => simp [operator?, ht] at h
  | some t =>
      simp only [operator?, ht, Option.bind_some] at h ⊢
      split at h
      · simp at h
      · exact h

/-- The reading after a look at the next operator. -/
def noted (s : Reading) : Reading :=
  if s.token?.any Token.startsDeclaration then s.note .declarationEndsApplication s.span else s

theorem rest_note (rule : TieBreak) (place : Span) : (s.note rule place).rest = s.rest := by
  simp only [note]
  split <;> rfl

theorem lastEnd_note (rule : TieBreak) (place : Span) :
    (s.note rule place).lastEnd = s.lastEnd := by
  simp only [note]
  split <;> rfl

theorem recorded_note (rule : TieBreak) (place : Span) :
    s.recorded <:+ (s.note rule place).recorded := by
  simp only [note]
  split
  · exact List.suffix_refl _
  · exact List.suffix_cons _ _

/-- A tie-break is no error. -/
theorem errors_note (rule : TieBreak) (place : Span) :
    (s.note rule place).recorded.filter Diagnostic.isError =
      s.recorded.filter Diagnostic.isError := by
  simp only [note]
  split
  · rfl
  · exact List.filter_cons_of_neg (show ¬ (Severity.note == Severity.error) = true by decide)

theorem rest_report (e : ParseError) : (s.report e).rest = s.rest := by
  unfold report
  split <;> rfl

theorem lastEnd_report (e : ParseError) : (s.report e).lastEnd = s.lastEnd := by
  unfold report
  split <;> rfl

theorem rest_noted : s.noted.rest = s.rest := by
  simp only [noted]
  split
  · exact rest_note _ _
  · rfl

theorem lastEnd_noted : s.noted.lastEnd = s.lastEnd := by
  simp only [noted]
  split
  · exact lastEnd_note _ _
  · rfl

theorem recorded_noted : s.recorded <:+ s.noted.recorded := by
  simp only [noted]
  split
  · exact recorded_note _ _
  · exact List.suffix_refl _

theorem errors_noted :
    s.noted.recorded.filter Diagnostic.isError = s.recorded.filter Diagnostic.isError := by
  simp only [noted]
  split
  · exact errors_note _ _
  · rfl

end Mim.Reading

/-- The token that an operator has of its own. -/
def Mim.Operator.sign? : Operator → Option Token
  | .where_ => some (.keyword .where_)
  | .arrow => some (.symbol .arrow)
  | .injection => some (.keyword .inj)
  | .application => none
  | .explicitApplication => some (.symbol .atSign)
  | .union => some (.symbol .union)
  | .extraction => some (.symbol .hash)

theorem Mim.Operator.sign?_of_ofToken? {t : Token} {op : Operator} (h : ofToken? t = some op)
    (ne : op ≠ .application) : op.sign? = some t := by
  unfold ofToken? at h
  split at h
  all_goals first
    | (cases h; rfl)
    | (split at h <;> cases h; exact absurd rfl ne)

theorem Mim.Operator.eq_of_ofToken?_union {t : Token} (h : ofToken? t = some .union) :
    t = .symbol .union := (Option.some.inj (sign?_of_ofToken? h (by simp))).symm

theorem Mim.Grammar.operator?_run {s : Reading} : operator? s = .ok s.operator? s.noted := by
  cases h : s.token? with
  | none =>
      have run : operator? s = (pure none : Parser _) s := by
        unfold operator?
        rw [peek_bind, h]
      simp only [run, Reading.operator?, Reading.noted, h]
      rfl
  | some t =>
      have run : operator? s = (if t.startsDeclaration then
          Grammar.span >>= fun place => do
            note .declarationEndsApplication place
            return none
          else return Operator.ofToken? t : Parser _) s := by
        unfold operator?
        rw [peek_bind, h]
      simp only [run, Reading.operator?, Reading.noted, h]
      split <;> simp_all <;> rfl

/-- A declaration is what stands behind its doc comment, with the span of that. -/
theorem Mim.Grammar.declaration_ok {g : Nested} {d : Decl} {s s' : Reading} :
    declaration g s = .ok d s' ↔
      ∃ form, declForm g s = .ok form s' ∧ d = ⟨s.doc?, form, s'.spanFrom s.span.start⟩ := by
  change (located (declForm g) >>= fun r => pure (Decl.mk s.doc? r.1 r.2)) s = .ok d s' ↔ _
  constructor
  · intro run
    obtain ⟨⟨form, place⟩, s₁, first, done⟩ := bind_ok.1 run
    obtain ⟨rfl, rfl⟩ := pure_ok.1 done
    obtain ⟨inner, rfl⟩ := located_ok.1 first
    exact ⟨form, inner, rfl⟩
  · rintro ⟨form, inner, rfl⟩
    exact bind_ok.2 ⟨(form, _), s', located_ok.2 ⟨inner, rfl⟩, rfl⟩

/-- The operator after a left operand is weaker than wanted or makes a larger expression. -/
theorem Mim.Grammar.extend?_ok {g : Nested} {least : Prec} {lhs : Expr} {r : Option Expr}
    {s s' : Reading} :
    extend? g least lhs s = .ok r s' ↔
      (∀ op ∈ s.operator?, op.prec < least) ∧ r = none ∧ s' = s.noted ∨
      ∃ op ∈ s.operator?, ¬ op.prec < least ∧ ∃ e, r = some e ∧
        infixExpr g lhs op s.noted = .ok e s' := by
  unfold extend?
  rw [bind_of_ok operator?_run]
  have stop : (pure none : Parser (Option Expr)) s.noted = .ok r s' ↔ r = none ∧ s' = s.noted := by
    rw [pure_ok, eq_comm, eq_comm (a := s.noted)]
  cases hop : s.operator? with
  | none => simp [stop]
  | some op =>
      change (if op.prec < least then pure none else some <$> infixExpr g lhs op) s.noted = _ ↔ _
      split
      · next h => simp [stop, h]
      · next h =>
          rw [map_eq_bind, bind_ok]
          simp only [pure_ok, Option.mem_def, Option.some.injEq, forall_eq', h, false_and,
            exists_eq_left', not_false_eq_true, true_and, false_or]
          constructor
          · rintro ⟨e, s₁, run, rfl, rfl⟩
            exact ⟨e, rfl, run⟩
          · rintro ⟨e, rfl, run⟩
            exact ⟨e, s', run, rfl, rfl⟩
