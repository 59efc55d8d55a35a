import Mim.Proofs.Spanned
import Mim.Proofs.Step

/-! # Readings in step

Two readings of the same tokens, which may stand at other places, are in step: at
every token the grammar decides alike. A `Simulation` is a relation between readings
that the few things a step can do to a reading keep. Every rule of the grammar then
keeps it, so that what the rules read on both sides differs in spans only. Whatever
they record is about a token that is no broken text, or about the end of the input.
-/

namespace Mim

/-- What a rule sees of an item. -/
def Item.bare (i : Item) : Token × Option String := (i.token, i.doc)

/-- What a rule sees of a changed item. -/
def Item.bareUnder (f : Change) (i : Item) : Token × Option String := (i.token, f.doc i.doc)

/-- A relation between readings that go in step, where the spans of the second are those
    of the first, moved. -/
structure Simulation where
  move : Change
  rel : Reading → Reading → Prop
  /-- Where something may be recorded. -/
  marks : Span → Prop
  bare {s u : Reading} : rel s u → u.rest.map Item.bare = s.rest.map (Item.bareUnder move)
  span_eq {s u : Reading} : rel s u → u.span = move s.span
  spanFrom_eq {s u : Reading} : rel s u → ∀ place : Span,
    u.spanFrom (move place).start = move (s.spanFrom place.start)
  marks_span {s u : Reading} {t : Token} : rel s u → s.token? = some t →
    (∀ reason, t ≠ .error reason) → marks s.span
  rel_advance {s u : Reading} : rel s u → rel s.advance u.advance
  rel_note {s u : Reading} : rel s u → ∀ rule place, marks place →
    rel (s.note rule place) (u.note rule (move place))
  rel_report {s u : Reading} : rel s u → ∀ e : ParseError, s.Blames marks e →
    rel (s.report e) (u.report (respan move e))

namespace Simulation

variable (σ : Simulation) {α β : Type} [Spanned α] [Spanned β]

/-- No condition on the next token. -/
abbrev Anywhere : Option Token → Prop := fun _ => True

/-- There is a next token, and it is no broken text. -/
def Intact (t : Option Token) : Prop := ∃ u ∈ t, ∀ reason, u ≠ .error reason

/-- Two outcomes of reading `n` tokens agree: both succeed, after reading at least `k` of
    them, or both fail. -/
def Agree (n k : Nat) :
    EStateM.Result ParseError Reading α → EStateM.Result ParseError Reading α → Prop
  | .ok a s, .ok b u => b = respan σ.move a ∧ σ.rel s u ∧ s.rest.length + k ≤ n
  | .error e s, .error e' u =>
    e' = respan σ.move e ∧ σ.rel s u ∧ s.rest.length ≤ n ∧ s.Blames σ.marks e
  | _, _ => False

/-- Two steps agree on all readings in step that have fewer than `m` tokens left, the next
    of which satisfies `P`. -/
def InStep (P : Option Token → Prop) (k m : Nat) (p q : Parser α) : Prop :=
  ∀ s u, σ.rel s u → P s.token? → s.rest.length < m → σ.Agree s.rest.length k (p s) (q u)

variable {σ} {P : Option Token → Prop} {k m : Nat} {s u : Reading}

theorem length_eq (h : σ.rel s u) : u.rest.length = s.rest.length := by
  simpa using congrArg List.length (σ.bare h)

theorem tokens_eq (h : σ.rel s u) : u.rest.map Item.token = s.rest.map Item.token := by
  simpa [Function.comp_def, Item.bare, Item.bareUnder] using congrArg (List.map Prod.fst) (σ.bare h)

theorem tokenAt?_eq (h : σ.rel s u) (n : Nat) : u.tokenAt? n = s.tokenAt? n := by
  simpa [Reading.tokenAt?] using congrArg (·[n]?) (tokens_eq h)

theorem token?_eq (h : σ.rel s u) : u.token? = s.token? := by
  simpa [Reading.token?] using congrArg List.head? (tokens_eq h)

theorem doc?_eq (h : σ.rel s u) : u.doc? = σ.move.doc s.doc? := by
  have bare := congrArg List.head? (σ.bare h)
  cases hs : s.rest <;> cases hu : u.rest <;>
    simp_all [Reading.doc?, Item.bare, Item.bareUnder, Change.doc_none]

theorem mismatch_eq (h : σ.rel s u) (expected : String) :
    u.mismatch expected = respan σ.move (s.mismatch expected) := by
  simp only [Reading.mismatch, token?_eq h, σ.span_eq h]
  split <;> rfl

theorem blames_mismatch (h : σ.rel s u) (expected : String) :
    s.Blames σ.marks (s.mismatch expected) :=
  Reading.blames_mismatch expected fun _ ht whole => σ.marks_span h ht whole

theorem Agree.weaken {n n' k' : Nat} {r r' : EStateM.Result ParseError Reading α}
    (h : σ.Agree n k r r') (hn : n ≤ n') (hk : n + k' ≤ n' + k) : σ.Agree n' k' r r' := by
  cases r <;> cases r' <;> simp only [Agree] at h ⊢
  · exact ⟨h.1, h.2.1, by omega⟩
  · exact ⟨h.1, h.2.1, by omega, h.2.2.2⟩

namespace InStep

theorem pure {a b : α} (h : b = respan σ.move a) : σ.InStep P 0 m (Pure.pure a) (Pure.pure b) :=
  fun _ _ hr _ _ => ⟨h, hr, Nat.le_refl _⟩

theorem unexpected (expected : String) :
    σ.InStep P k m (Grammar.unexpected expected : Parser α) (Grammar.unexpected expected) :=
  fun _ _ hr _ _ => ⟨mismatch_eq hr expected, hr, Nat.le_refl _, blames_mismatch hr expected⟩

theorem weaken {Q : Option Token → Prop} {j n : Nat} {p q : Parser α} (h : σ.InStep P k m p q)
    (hQ : ∀ t, Q t → P t) (hj : j ≤ k) (hn : n ≤ m) : σ.InStep Q j n p q :=
  fun s u hr hs hm => (h s u hr (hQ _ hs) (by omega)).weaken (by omega) (by omega)

theorem bind' {j : Nat} {p q : Parser α} {f f' : α → Parser β} (hp : σ.InStep P k m p q)
    (hf : ∀ a, σ.InStep Anywhere j (m - k) (f a) (f' (respan σ.move a))) :
    σ.InStep P (k + j) m (p >>= f) (q >>= f') := by
  intro s u hr hs hm
  have agree := hp s u hr hs hm
  cases hps : p s with
  | error e s₁ =>
      cases hqu : q u with
      | ok => simp [hps, hqu, Agree] at agree
      | error e' u₁ =>
          rw [hps, hqu] at agree
          rw [Grammar.bind_of_error hps, Grammar.bind_of_error hqu]
          exact agree
  | ok a s₁ =>
      cases hqu : q u with
      | error => simp [hps, hqu, Agree] at agree
      | ok b u₁ =>
          rw [hps, hqu] at agree
          obtain ⟨rfl, hr₁, hk⟩ := agree
          rw [Grammar.bind_of_ok hps, Grammar.bind_of_ok hqu]
          exact (hf a s₁ u₁ hr₁ trivial (by omega)).weaken (by omega) (by omega)

theorem anywhere {p q : Parser α} (h : σ.InStep Anywhere k m p q) : σ.InStep P k m p q :=
  h.weaken (fun _ _ => trivial) (Nat.le_refl _) (Nat.le_refl _)

theorem loose {p q : Parser α} (h : σ.InStep P k m p q) : σ.InStep P 0 m p q :=
  h.weaken (fun _ h => h) (Nat.zero_le _) (Nat.le_refl _)

theorem lower {p q : Parser α} (h : σ.InStep P k (m + 1) p q) : σ.InStep P k m p q :=
  h.weaken (fun _ h => h) (Nat.le_refl _) (Nat.le_succ _)

/-- A step and what follows it. -/
theorem bind {j : Nat} {p q : Parser α} {f f' : α → Parser β} (hp : σ.InStep P j m p q)
    (hf : ∀ a, σ.InStep Anywhere k m (f a) (f' (respan σ.move a))) :
    σ.InStep P k m (p >>= f) (q >>= f') := by
  simpa using bind' hp.loose hf

/-- A step that reads something, and what follows it. -/
theorem before {p q : Parser α} {f f' : α → Parser β} (hp : σ.InStep P k m p q)
    (hf : ∀ a, σ.InStep Anywhere 0 m (f a) (f' (respan σ.move a))) :
    σ.InStep P k m (p >>= f) (q >>= f') :=
  bind' hp fun a => (hf a).weaken (fun _ h => h) (Nat.le_refl _) (Nat.sub_le _ _)

/-- A step that reads a token, and what follows it. -/
theorem next {p q : Parser α} {f f' : α → Parser β} (hp : σ.InStep P 1 (m + 1) p q)
    (hf : ∀ a, σ.InStep Anywhere 0 m (f a) (f' (respan σ.move a))) :
    σ.InStep P 1 (m + 1) (p >>= f) (q >>= f') := bind' hp hf

theorem peek {f f' : Option Token → Parser α}
    (h : ∀ t, P t → σ.InStep (· = t) k m (f t) (f' t)) :
    σ.InStep P k m (Grammar.peek >>= f) (Grammar.peek >>= f') := by
  intro s u hr hs hm
  rw [Grammar.peek_bind, Grammar.peek_bind, token?_eq hr]
  exact h _ hs s u hr rfl hm

theorem sees {t : Token} {f f' : Bool → Parser α}
    (yes : σ.InStep (· = some t) k m (f true) (f' true))
    (no : σ.InStep P k m (f false) (f' false)) :
    σ.InStep P k m (Grammar.sees t >>= f) (Grammar.sees t >>= f') := by
  intro s u hr hs hm
  rw [Grammar.sees_bind, Grammar.sees_bind, token?_eq hr]
  by_cases h : s.token? = some t
  · rw [show (s.token? == some t) = true by simpa using h]
    exact yes s u hr h hm
  · rw [show (s.token? == some t) = false by simpa using h]
    exact no s u hr hs hm

theorem peekAt {n : Nat} {f f' : Option Token → Parser α}
    (h : ∀ t, σ.InStep P k m (f t) (f' t)) :
    σ.InStep P k m (Grammar.peekAt n >>= f) (Grammar.peekAt n >>= f') := by
  intro s u hr hs hm
  rw [Grammar.peekAt_bind, Grammar.peekAt_bind, tokenAt?_eq hr]
  exact h _ s u hr hs hm

theorem span {f f' : Span → Parser α} (h : ∀ place, σ.InStep P k m (f place) (f' (σ.move place))) :
    σ.InStep P k m (Grammar.span >>= f) (Grammar.span >>= f') := by
  intro s u hr hs hm
  rw [Grammar.span_bind, Grammar.span_bind, σ.span_eq hr]
  exact h _ s u hr hs hm

/-- The span of the next token, where something may be recorded. -/
theorem mark {f f' : Span → Parser α} (hP : ∀ t, P t → Intact t)
    (h : ∀ place, σ.marks place → σ.InStep P k m (f place) (f' (σ.move place))) :
    σ.InStep P k m (Grammar.span >>= f) (Grammar.span >>= f') := by
  intro s u hr hs hm
  obtain ⟨t, ht, whole⟩ := hP _ hs
  rw [Grammar.span_bind, Grammar.span_bind, σ.span_eq hr]
  exact h _ (σ.marks_span hr ht whole) s u hr hs hm

theorem mark_some {t : Token} {f f' : Span → Parser α} (whole : ∀ reason, t ≠ .error reason)
    (h : ∀ place, σ.marks place → σ.InStep (· = some t) k m (f place) (f' (σ.move place))) :
    σ.InStep (· = some t) k m (Grammar.span >>= f) (Grammar.span >>= f') :=
  mark (by rintro _ rfl; exact ⟨t, rfl, whole⟩) h

theorem advance : σ.InStep (· ≠ none) 1 m Grammar.advance Grammar.advance := by
  intro s u hr hs _
  obtain ⟨t, ht⟩ := Option.ne_none_iff_exists'.1 hs
  exact ⟨rfl, σ.rel_advance hr, Nat.le_of_eq (Reading.length_advance ht)⟩

theorem advance_some (t : Token) : σ.InStep (· = some t) 1 m Grammar.advance Grammar.advance :=
  advance.weaken (by rintro _ rfl; simp) (Nat.le_refl _) (Nat.le_refl _)

theorem note (rule : TieBreak) {place : Span} (marked : σ.marks place) {f f' : Unit → Parser α}
    (h : σ.InStep P k m (f ()) (f' ())) :
    σ.InStep P k m (Grammar.note rule place >>= f) (Grammar.note rule (σ.move place) >>= f') := by
  intro s u hr hs hm
  have rest : (s.note rule place).rest = s.rest := Reading.rest_note rule place
  rw [Grammar.note_bind, Grammar.note_bind, ← rest]
  refine h _ _ (σ.rel_note hr rule place marked) ?_ (by rwa [rest])
  rwa [Reading.token?, rest]

theorem accept (t : Token) : σ.InStep P 0 m (Grammar.accept t) (Grammar.accept t) := by
  intro s u hr _ _
  rw [Grammar.accept_run, Grammar.accept_run, token?_eq hr]
  by_cases h : s.token? = some t
  · have := Reading.length_advance h
    simp only [h, if_true]
    exact ⟨rfl, σ.rel_advance hr, by omega⟩
  · simp only [h, if_false]
    exact ⟨rfl, hr, Nat.le_refl _⟩

theorem accept_some (t : Token) :
    σ.InStep (· = some t) 1 m (Grammar.accept t) (Grammar.accept t) := by
  intro s u hr hs _
  rw [Grammar.accept_run, Grammar.accept_run, token?_eq hr, if_pos hs, if_pos hs]
  exact ⟨rfl, σ.rel_advance hr, Nat.le_of_eq (Reading.length_advance hs)⟩

theorem expect (t : Token) : σ.InStep P 1 m (Grammar.expect t) (Grammar.expect t) := by
  intro s u hr _ _
  rw [Grammar.expect_run, Grammar.expect_run, token?_eq hr]
  by_cases h : s.token? = some t
  · simp only [h, if_true]
    exact ⟨rfl, σ.rel_advance hr, Nat.le_of_eq (Reading.length_advance h)⟩
  · simp only [h, if_false]
    exact ⟨mismatch_eq hr _, hr, Nat.le_refl _, blames_mismatch hr _⟩

theorem invalid (message : String) {place : Span} (marked : σ.marks place) :
    σ.InStep P k m (Grammar.invalid message place : Parser α) (Grammar.invalid message (σ.move place)) :=
  fun _ _ hr _ _ => ⟨rfl, hr, Nat.le_refl _, .token rfl marked⟩

theorem ite {c : Prop} [Decidable c] {p q p' q' : Parser α} (h : σ.InStep P k m p p')
    (h' : σ.InStep P k m q q') : σ.InStep P k m (if c then p else q) (if c then p' else q') := by
  split <;> assumption

/-- A token that may be there, where what follows reads one if it is not. -/
theorem accept_next {t : Token} {f f' : Bool → Parser α}
    (yes : σ.InStep Anywhere 0 m (f true) (f' true))
    (no : σ.InStep P 1 (m + 1) (f false) (f' false)) :
    σ.InStep P 1 (m + 1) (Grammar.accept t >>= f) (Grammar.accept t >>= f') := by
  intro s u hr hs hm
  by_cases h : s.token? = some t
  · have hu : u.token? = some t := by rw [token?_eq hr, h]
    rw [Grammar.bind_of_ok (Grammar.accept_ok.2 (.inl ⟨rfl, h, rfl⟩)),
      Grammar.bind_of_ok (Grammar.accept_ok.2 (.inl ⟨rfl, hu, rfl⟩))]
    have length := Reading.length_advance h
    exact (yes _ _ (σ.rel_advance hr) trivial (by omega)).weaken (by omega) (by omega)
  · have hu : u.token? ≠ some t := by rwa [token?_eq hr]
    rw [Grammar.bind_of_ok (Grammar.accept_ok.2 (.inr ⟨rfl, h, rfl⟩)),
      Grammar.bind_of_ok (Grammar.accept_ok.2 (.inr ⟨rfl, hu, rfl⟩))]
    exact no s u hr hs hm

/-- What is read together with its span. -/
theorem located {p q : Parser α} (h : σ.InStep P k m p q) :
    σ.InStep P k m (Grammar.located p) (Grammar.located q) := by
  refine span fun place => ?_
  intro s u hr hs hm
  have agree := h s u hr hs hm
  cases hps : p s with
  | error e s₁ =>
      cases hqu : q u with
      | ok => simp [hps, hqu, Agree] at agree
      | error e' u₁ =>
          rw [hps, hqu] at agree
          rw [Grammar.bind_of_error hps, Grammar.bind_of_error hqu]
          exact agree
  | ok a s₁ =>
      cases hqu : q u with
      | error => simp [hps, hqu, Agree] at agree
      | ok b u₁ =>
          rw [hps, hqu] at agree
          obtain ⟨rfl, hr₁, hk⟩ := agree
          rw [Grammar.bind_of_ok hps, Grammar.bind_of_ok hqu, Grammar.get_bind, Grammar.get_bind]
          exact ⟨congrArg _ (σ.spanFrom_eq hr₁ place), hr₁, hk⟩

theorem map {p q : Parser α} {f f' : α → β} (h : σ.InStep P k m p q)
    (hf : ∀ a, f' (respan σ.move a) = respan σ.move (f a)) :
    σ.InStep P k m (f <$> p) (f' <$> q) := by
  rw [Grammar.map_eq_bind, Grammar.map_eq_bind]
  exact h.before fun a => pure (hf a)

theorem some_map {p q : Parser α} (h : σ.InStep P k m p q) :
    σ.InStep P k m (some <$> p) (some <$> q) := h.map fun _ => rfl

theorem accept_discard (t : Token) :
    σ.InStep P 0 m (discard (Grammar.accept t)) (discard (Grammar.accept t)) := by
  rw [Grammar.discard_eq_bind]
  exact (accept t).bind fun _ => pure rfl

theorem manyUpTo {step step' : Parser (Option α)} (h : σ.InStep Anywhere 0 m step step') :
    ∀ n, σ.InStep Anywhere 0 m (Grammar.manyUpTo step n) (Grammar.manyUpTo step' n) := by
  intro n
  induction n with
  | zero => exact pure rfl
  | succ n ih =>
      refine h.bind fun a => ?_
      cases a with
      | none => exact pure rfl
      | some a => exact ih.bind fun _ => pure rfl

theorem many {step step' : Parser (Option α)} (h : σ.InStep Anywhere 0 m step step') :
    σ.InStep Anywhere 0 m (Grammar.many step) (Grammar.many step') := by
  intro s u hr
  change _ → _ → σ.Agree _ 0 (Grammar.manyUpTo step (s.rest.length + 1) s)
    (Grammar.manyUpTo step' (u.rest.length + 1) u)
  rw [length_eq hr]
  exact manyUpTo h _ s u hr

/-- As `many`, where the step reads something the first time. -/
theorem many_before {step step' : Parser (Option α)} (h : σ.InStep P k m step step')
    (hs : σ.InStep Anywhere 0 m step step') :
    σ.InStep P k m (Grammar.many step) (Grammar.many step') := by
  intro s u hr
  change _ → _ → σ.Agree _ k (Grammar.manyUpTo step (s.rest.length + 1) s)
    (Grammar.manyUpTo step' (u.rest.length + 1) u)
  rw [length_eq hr]
  refine InStep.before h (fun a => ?_) s u hr
  cases a with
  | none => exact pure rfl
  | some a => exact (manyUpTo hs _).bind fun _ => pure rfl

theorem many1 {first first' : Parser α} {step step' : Parser (Option α)}
    (h : σ.InStep P k m first first') (hs : σ.InStep Anywhere 0 m step step') :
    σ.InStep P k m (Grammar.many1 first step) (Grammar.many1 first' step') :=
  h.before fun _ => (many hs).bind fun _ => pure rfl

theorem commaListUpTo {close : Token} {element element' : Parser α}
    (h : σ.InStep Anywhere k m element element') :
    ∀ n, σ.InStep Anywhere 0 m (Grammar.commaListUpTo close element n)
      (Grammar.commaListUpTo close element' n)
  | 0 => pure rfl
  | n + 1 => sees (pure rfl) (h.bind fun _ => (accept _).bind fun
      | true => (commaListUpTo h n).bind fun _ => pure rfl
      | false => pure rfl)

theorem commaList {close : Token} {element element' : Parser α}
    (h : σ.InStep Anywhere k m element element') :
    σ.InStep Anywhere 0 m (Grammar.commaList close element) (Grammar.commaList close element') := by
  intro s u hr
  change _ → _ → σ.Agree _ 0 (Grammar.commaListUpTo close element (s.rest.length + 1) s)
    (Grammar.commaListUpTo close element' (u.rest.length + 1) u)
  rw [length_eq hr]
  exact commaListUpTo h _ s u hr

theorem growUpTo {step step' : α → Parser (Option α)}
    (h : ∀ a, σ.InStep Anywhere 0 m (step a) (step' (respan σ.move a))) :
    ∀ n a, σ.InStep Anywhere 0 m (Grammar.growUpTo step n a)
      (Grammar.growUpTo step' n (respan σ.move a)) := by
  intro n
  induction n with
  | zero => exact fun _ => pure rfl
  | succ n ih =>
      refine fun a => (h a).bind fun b => ?_
      cases b with
      | none => exact pure rfl
      | some b => exact ih b

theorem grow {step step' : α → Parser (Option α)}
    (h : ∀ a, σ.InStep Anywhere 0 m (step a) (step' (respan σ.move a))) (a : α) :
    σ.InStep Anywhere 0 m (Grammar.grow step a) (Grammar.grow step' (respan σ.move a)) := by
  intro s u hr
  change _ → _ → σ.Agree _ 0 (Grammar.growUpTo step (s.rest.length + 1) a s)
    (Grammar.growUpTo step' (u.rest.length + 1) (respan σ.move a) u)
  rw [length_eq hr]
  exact growUpTo h _ a s u hr

end InStep

end Simulation

end Mim
