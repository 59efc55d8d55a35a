import Mim.Proofs.InStep.Grammar

/-! # What is kept while a file is read

A watch over a reading is a property that every move of the grammar keeps, with a second
one that holds wherever a rule has just read something. Some rules record at the next
token that they chose one form over another. They may do so only where nothing of the kind
has been recorded there before, which the second property is to ensure.
-/

namespace Mim

open Grammar

variable {α β : Type}

namespace Grammar

/-- From where `P` holds, a step that succeeds leads to where `Q` does, and one that
    fails to where `H` does. -/
structure Keeps (H P Q : Reading → Prop) (p : Parser α) : Prop where
  ok {s s' : Reading} {a : α} : P s → p s = .ok a s' → Q s'
  error {s s' : Reading} {e : ParseError} : P s → p s = .error e s' → H s'

namespace Keeps

variable {H P R Q : Reading → Prop}

theorem pure {a : α} (h : ∀ {s}, P s → Q s) : Keeps H P Q (Pure.pure a) where
  ok hs run := (pure_ok.1 run).2 ▸ h hs
  error _ run := by cases run

theorem bind {p : Parser α} {f : α → Parser β} (hp : Keeps H P R p)
    (hf : ∀ a, Keeps H R Q (f a)) : Keeps H P Q (p >>= f) where
  ok hs run := by
    obtain ⟨a, s₁, first, rest⟩ := bind_ok.1 run
    exact (hf a).ok (hp.ok hs first) rest
  error {s s' e} hs run := by
    cases first : p s with
    | error e' s₁ =>
        rw [bind_of_error first] at run
        cases run
        exact hp.error hs first
    | ok a s₁ =>
        rw [bind_of_ok first] at run
        exact (hf a).error (hp.ok hs first) run

/-- What a step does is told one reading at a time. -/
theorem of_run {p : Parser α} {q : Reading → Parser α} (run : ∀ s, p s = q s s)
    (h : ∀ t, Keeps H (fun s => P s ∧ s = t) Q (q t)) : Keeps H P Q p where
  ok {s _ _} hs done := (h s).ok ⟨hs, rfl⟩ (run s ▸ done)
  error {s _ _} hs done := (h s).error ⟨hs, rfl⟩ (run s ▸ done)

theorem weaken {P' Q' : Reading → Prop} {p : Parser α} (h : Keeps H P Q p)
    (hb : ∀ {s}, P' s → P s) (ha : ∀ {s}, Q s → Q' s) :
    Keeps H P' Q' p where
  ok hs run := ha (h.ok (hb hs) run)
  error hs run := h.error (hb hs) run

/-- A step that cannot fail. -/
theorem of_move {p : Parser α} {m : Reading → Reading} (hp : ∀ s, ∃ a, p s = .ok a (m s))
    (h : ∀ {s}, P s → Q (m s)) : Keeps H P Q p where
  ok {s _ _} hs run := by
    obtain ⟨b, moved⟩ := hp s
    rw [moved] at run
    cases run
    exact h hs
  error {s _ _} _ run := by
    obtain ⟨b, moved⟩ := hp s
    rw [moved] at run
    cases run

/-- A step that only looks. -/
theorem look {p : Parser α} {f : α → Parser β} (hp : ∀ s, ∃ a, p s = .ok a s)
    (hf : ∀ a, Keeps H P Q (f a)) : Keeps H P Q (p >>= f) :=
  (of_move hp id).bind hf

/-- A step that cannot fail, with what it gives. -/
theorem moved {p : Parser α} {f : α → Parser β} {v : Reading → α} {m : Reading → Reading}
    (hp : ∀ s, p s = .ok (v s) (m s))
    (hf : ∀ a, Keeps H (fun s => ∃ t, P t ∧ v t = a ∧ s = m t) Q (f a)) :
    Keeps H P Q (p >>= f) where
  ok {s _ _} hs run := (hf _).ok ⟨s, hs, rfl, rfl⟩ (bind_of_ok (hp s) ▸ run)
  error {s _ _} hs run := (hf _).error ⟨s, hs, rfl, rfl⟩ (bind_of_ok (hp s) ▸ run)

/-- A step that only looks, with what it sees. -/
theorem see {p : Parser α} {f : α → Parser β} {v : Reading → α} (hp : ∀ s, p s = .ok (v s) s)
    (hf : ∀ a, Keeps H (fun s => P s ∧ v s = a) Q (f a)) :
    Keeps H P Q (p >>= f) := by
  refine moved hp fun a => (hf a).weaken ?_ id
  rintro _ ⟨s, hs, v, rfl⟩
  exact ⟨hs, v⟩

theorem peek {f : Option Token → Parser α}
    (h : ∀ t, Keeps H (fun s => P s ∧ s.token? = t) Q (f t)) :
    Keeps H P Q (Grammar.peek >>= f) := see (fun _ => rfl) h

theorem accept {t : Token} {f : Bool → Parser α}
    (yes : Keeps H (fun s => ∃ s₁, P s₁ ∧ s₁.token? = some t ∧ s = s₁.advance) Q (f true))
    (no : Keeps H P Q (f false)) :
    Keeps H P Q (Grammar.accept t >>= f) where
  ok hs run := by
    obtain ⟨b, s₁, first, rest⟩ := bind_ok.1 run
    rcases accept_ok.1 first with ⟨rfl, next, rfl⟩ | ⟨rfl, -, rfl⟩
    · exact yes.ok ⟨_, hs, next, rfl⟩ rest
    · exact no.ok hs rest
  error {s _ _} hs run := by
    by_cases next : s.token? = some t
    · rw [bind_of_ok (accept_ok.2 (.inl ⟨rfl, next, rfl⟩))] at run
      exact yes.error ⟨_, hs, next, rfl⟩ run
    · rw [bind_of_ok (accept_ok.2 (.inr ⟨rfl, next, rfl⟩))] at run
      exact no.error hs run

theorem ite {c : Prop} [Decidable c] {p q : Parser α} (hp : Keeps H P Q p)
    (hq : Keeps H P Q q) : Keeps H P Q (if c then p else q) := by
  split
  · exact hp
  · exact hq

theorem unexpected {expected : String} (h : ∀ {s}, P s → H s) :
    Keeps H P Q (Grammar.unexpected expected : Parser α) where
  ok _ run := by cases run
  error hs run := by
    cases run
    exact h hs

theorem invalid {message : String} {place : Span} (h : ∀ {s}, P s → H s) :
    Keeps H P Q (Grammar.invalid message place : Parser α) where
  ok _ run := by cases run
  error hs run := by
    cases run
    exact h hs

theorem last {p : Parser α} {f : α → β} (hp : Keeps H P Q p) :
    Keeps H P Q (p >>= fun a => Pure.pure (f a)) := hp.bind fun _ => pure id

theorem map {p : Parser α} {f : α → β} (hp : Keeps H P Q p) :
    Keeps H P Q (f <$> p) := by
  rw [map_eq_bind]
  exact hp.last

theorem located {p : Parser α} (hp : Keeps H P Q p) :
    Keeps H P Q (Grammar.located p) :=
  look (fun _ => ⟨_, rfl⟩) fun _ => hp.bind fun _ => look (fun _ => ⟨_, rfl⟩) fun _ => pure id

theorem many {step : Parser (Option α)} (h : Keeps H P P step) :
    Keeps H P P (Grammar.many step) := by
  suffices upTo : ∀ n, Keeps H P P (manyUpTo step n) from
    of_run (q := fun s => manyUpTo step (s.rest.length + 1)) (fun _ => rfl) fun _ =>
      (upTo _).weaken And.left id
  intro n
  induction n with
  | zero => exact pure id
  | succ n ih =>
      refine h.bind fun r => ?_
      cases r with
      | none => exact pure id
      | some a => exact ih.last

theorem grow {step : α → Parser (Option α)} {a : α} (h : ∀ a, Keeps H P P (step a)) :
    Keeps H P P (Grammar.grow step a) := by
  suffices upTo : ∀ n a, Keeps H P P (growUpTo step n a) from
    of_run (q := fun s => growUpTo step (s.rest.length + 1) a) (fun _ => rfl) fun _ =>
      (upTo _ _).weaken And.left id
  intro n
  induction n with
  | zero => exact fun _ => pure id
  | succ n ih =>
      intro a
      refine (h a).bind fun r => ?_
      cases r with
      | none => exact pure id
      | some b => exact ih b

end Keeps

end Grammar

/-- The rules by which one form is chosen over another at the next token. -/
def TieBreak.isAhead : TieBreak → Bool
  | .patternOverBattern | .groupOverBatternType | .typeToEnclosingForm
  | .filterOverExplicitApplication => true
  | _ => false

theorem Reading.rest_notes (rules : List TieBreak) (place : Span) (s : Reading) :
    (rules.foldl (fun s' rule => s'.note rule place) s).rest = s.rest := by
  induction rules generalizing s with
  | nil => rfl
  | cons rule rules ih => exact (ih _).trans (s.rest_note rule place)

/-- What is watched of a reading: what holds all along, and what holds besides where a rule
    has just read something. -/
structure Watch where
  held : Reading → Prop
  fresh : Reading → Prop
  held_of_fresh {s : Reading} : fresh s → held s
  /-- Nothing but the body of a `where` reads an end. -/
  advance {s : Reading} {t : Token} :
    held s → s.token? = some t → t ≠ .keyword .end_ → fresh s.advance
  noted {s : Reading} : fresh s → fresh s.noted
  ahead {s : Reading} (rules : List TieBreak) : fresh s → s.token?.isSome → rules.Nodup →
    (∀ rule ∈ rules, rule.isAhead) → held (rules.foldl (fun s' rule => s'.note rule s.span) s)
  literal {s : Reading} {value : Literal} : held s → s.token? = some (.literal value) →
    s.advance.token? = some (.symbol .colon) →
    fresh (s.advance.advance.note .typeToLiteral s.span)
  annex {s : Reading} {path : AnnexPath} : held s → s.token? = some (.annex path) →
    s.advance.token? = some (.symbol .leftParen) →
    fresh (s.advance.note .annexArgumentOverSubtags s.advance.span)
  whereBody {g : Nested} : (∀ {σ : Simulation} {n : Nat}, σ.Nests n g g) →
    Keeps held held fresh (declaration g) →
    Keeps held (fun s => ∃ s₁, held s₁ ∧ s₁.token? = some (.keyword .where_) ∧ s = s₁.advance)
      fresh (whereBody g)

namespace Watch

variable (w : Watch)

/-- A step that reads something, whatever was recorded in front of it. -/
abbrev Reads (p : Parser α) : Prop := Keeps w.held w.held w.fresh p

/-- A step that is taken where something has just been read. -/
abbrev Stays (p : Parser α) : Prop := Keeps w.held w.fresh w.fresh p

variable {w} {P Q : Reading → Prop}

theorem Reads.stays {p : Parser α} (h : w.Reads p) : w.Stays p := h.weaken w.held_of_fresh id

/-- Besides, something is known of what comes next. -/
theorem Reads.ahead {seen : Reading → Prop} {p : Parser α} (h : w.Reads p) :
    Keeps w.held (fun s => w.fresh s ∧ seen s) w.fresh p := h.stays.weaken And.left id

theorem advance_keeps {t : Token} (ht : t ≠ .keyword .end_) :
    Keeps w.held (fun s => w.held s ∧ s.token? = some t) w.fresh Grammar.advance :=
  Keeps.of_move (fun _ => ⟨_, rfl⟩) fun hs => w.advance hs.1 hs.2 ht

theorem accept_keeps {t : Token} {f : Bool → Parser α} (ht : t ≠ .keyword .end_)
    (hb : ∀ {s}, P s → w.held s) (yes : Keeps w.held w.fresh Q (f true))
    (no : Keeps w.held P Q (f false)) : Keeps w.held P Q (accept t >>= f) := by
  refine Keeps.accept (yes.weaken ?_ id) no
  rintro _ ⟨s, hs, next, rfl⟩
  exact w.advance (hb hs) next ht

theorem discard_stays {t : Token} (ht : t ≠ .keyword .end_) : w.Stays (discard (accept t)) := by
  rw [discard_eq_bind]
  exact accept_keeps ht w.held_of_fresh (Keeps.pure id) (Keeps.pure id)

theorem expect_reads {t : Token} (ht : t ≠ .keyword .end_) : w.Reads (expect t) :=
  accept_keeps ht id (Keeps.pure id) (Keeps.unexpected id)

theorem sees_keeps {t : Token} {f : Bool → Parser α}
    (yes : Keeps w.held (fun s => P s ∧ s.token? = some t) Q (f true))
    (no : Keeps w.held P Q (f false)) : Keeps w.held P Q (sees t >>= f) := by
  refine Keeps.see (v := fun s => s.token? == some t) (fun _ => rfl) fun seen => ?_
  cases seen with
  | true => exact yes.weaken (fun hs => ⟨hs.1, beq_iff_eq.1 hs.2⟩) id
  | false => exact no.weaken And.left id

theorem after_stays {marker : Token} {p : Parser α} (ht : marker ≠ .keyword .end_)
    (hp : w.Stays p) : w.Stays (after marker p) :=
  accept_keeps ht w.held_of_fresh hp.map (Keeps.pure id)

theorem many1_stays {first : Parser α} {step : Parser (Option α)} (hf : w.Stays first)
    (h : w.Stays step) : w.Stays (many1 first step) :=
  Keeps.bind hf fun _ => h.many.last

theorem commaList_stays {close : Token} {element : Parser α} (h : w.Stays element) :
    w.Stays (commaList close element) := by
  suffices upTo : ∀ n, w.Stays (commaListUpTo close element n) from
    Keeps.of_run (q := fun s => commaListUpTo close element (s.rest.length + 1)) (fun _ => rfl)
      fun _ => (upTo _).weaken And.left id
  intro n
  induction n with
  | zero => exact Keeps.pure id
  | succ n ih =>
      refine Keeps.look (fun _ => ⟨_, rfl⟩) fun _ => Keeps.ite (Keeps.pure id) ?_
      refine h.bind fun _ => accept_keeps (by decide) w.held_of_fresh ih.last (Keeps.pure id)

/-- The choice of a form is recorded at the next token. -/
theorem note_ahead {rule : TieBreak} {T : Option Token → Prop} {f : Unit → Parser α}
    (h : rule.isAhead) (next : ∀ t, T t → t.isSome)
    (hf : Keeps w.held (fun s => w.held s ∧ T s.token?) Q (f ())) :
    Keeps w.held (fun s => w.fresh s ∧ T s.token?) Q
      (span >>= fun place => note rule place >>= f) := by
  refine Keeps.of_run (q := fun s => note rule s.span >>= f) (fun _ => rfl) fun t => ?_
  refine Keeps.bind (Keeps.of_move (m := fun s => s.note rule t.span) (fun _ => ⟨_, rfl⟩) ?_)
    fun _ => hf
  rintro _ ⟨⟨fresh, ahead⟩, rfl⟩
  constructor
  · exact w.ahead [rule] fresh (next _ ahead) (by simp) (by simpa using h)
  · rwa [Reading.token?, Reading.rest_note]

end Watch

end Mim
