import Mim.Proofs.Spells

/-! # Rules that spell

Each way of putting rules together keeps that what is read is what is written.
-/

namespace Mim

open Simulation (Anywhere)
open Grammar Token Mode

variable {α β : Type} [Spanned α] [Spanned β] {F F₁ : List Token → List Token → Prop} {m : Mode}
  {P : Option Token → Prop} {k k' : Grade} {l₀ : List Token}

namespace Mode.Same

variable {a a' : α} {b b' : β}

theorem prod_iff : m.Same (a, b) (a', b') ↔ m.Same a a' ∧ m.Same b b' := Prod.ext_iff

theorem map {f : α → β} (hf : ∀ a, respan m.move (f a) = f (respan m.move a)) (h : m.Same a a') :
    m.Same (f a) (f a') := by
  rw [Same, hf, hf, h]

variable {γ δ : Type} [Spanned γ] [Spanned δ] {c c' : γ}

theorem map₂ {f : α → β → γ} (hf : ∀ a b, respan m.move (f a b) = f (respan m.move a) (respan m.move b))
    (ha : m.Same a a') (hb : m.Same b b') : m.Same (f a b) (f a' b') := by
  rw [Same, hf, hf, ha, hb]

theorem map₃ {f : α → β → γ → δ}
    (hf : ∀ a b c, respan m.move (f a b c) = f (respan m.move a) (respan m.move b) (respan m.move c))
    (ha : m.Same a a') (hb : m.Same b b') (hc : m.Same c c') : m.Same (f a b c) (f a' b' c') := by
  rw [Same, hf, hf, ha, hb, hc]

end Mode.Same

namespace SpellsIf

variable {p q : Parser α} {f f' : α → Parser β} {L L₁ : α → List Token} {L₂ : β → List Token}

theorem anywhere (h : SpellsIf F m Anywhere k l₀ p q L) : SpellsIf F m P k l₀ p q L :=
  fun s a s' _ run => h s a s' trivial run

theorem loosen [k.IsLoose] (h : SpellsIf F m P .phrase l₀ p q L) : SpellsIf F m P k l₀ p q L :=
  fun s a s' hs run => (h s a s' hs run).weaken id Grade.IsLoose.loosen

theorem whole [k.IsWhole] (h : SpellsIf F m P k l₀ p q L) : SpellsIf F m P .phrase l₀ p q L :=
  fun s a s' hs run => (h s a s' hs run).weaken id Grade.IsWhole.phrase

theorem follow (h : SpellsIf F₁ m P k l₀ p q L) (hF : ∀ {ts us}, F ts us → F₁ ts us) :
    SpellsIf F m P k l₀ p q L :=
  fun s a s' hs run => (h s a s' hs run).weaken hF id

theorem shift {L' : α → List Token} (h : SpellsIf F m P k [] p q L)
    (hL : ∀ a, L' a = l₀ ++ L a) : SpellsIf F m P k l₀ p q L' := by
  intro s a s' hs run
  rw [hL]
  exact (h s a s' hs run).shift

theorem pure {a a' : α} (h : m.Same a a') (hl : L a = l₀) :
    SpellsIf F m P .piece l₀ (Pure.pure a) (Pure.pure a') L := by
  intro s b s' _ run
  obtain ⟨rfl, rfl⟩ := pure_ok.1 run
  rw [hl]
  exact SpelledIf.pure h

/-- A rule that reads nothing. -/
theorem fails (h : ∀ s a s', P s.token? → p s ≠ .ok a s') : SpellsIf F m P k l₀ p q L :=
  fun s a s' hs run => absurd run (h s a s' hs)

theorem unexpected (expected : String) :
    SpellsIf F m P k l₀ (Grammar.unexpected expected : Parser α) q L :=
  fails fun _ _ _ _ run => nomatch run

theorem invalid (message : String) (place : Span) :
    SpellsIf F m P k l₀ (Grammar.invalid message place : Parser α) q L :=
  fails fun _ _ _ _ run => nomatch run

/-- A phrase and a piece after it. -/
theorem bind [k.IsLoose] (hp : Spells m P .phrase [] p q L₁)
    (hf : ∀ a a', m.Same a a' → Spells m Anywhere .piece (l₀ ++ L₁ a) (f a) (f' a') L₂) :
    Spells m P k l₀ (p >>= f) (q >>= f') L₂ := by
  refine loosen fun s b s' hs run => ?_
  obtain ⟨a, s₁, first, rest⟩ := bind_ok.1 run
  exact (hp s a s₁ hs first).shift.bind fun a' same => hf a a' same s₁ b s' trivial rest

/-- A piece and what stands after it. -/
theorem append [k.IsPiece] (hp : Spells m P .piece [] p q L₁)
    (hf : ∀ a a', m.Same a a' → Spells m Anywhere k (l₀ ++ L₁ a) (f a) (f' a') L₂) :
    Spells m P k l₀ (p >>= f) (q >>= f') L₂ := by
  intro s b s' hs run
  obtain ⟨a, s₁, first, rest⟩ := bind_ok.1 run
  exact (hp s a s₁ hs first).shift.append Looks.follow fun a' same =>
    hf a a' same s₁ b s' trivial rest

/-- A piece in front of something that is never empty. -/
theorem before [k.IsWhole] (hp : SpellsIf Looks m P .piece [] p q L₁)
    (hf : ∀ a a', m.Same a a' → SpellsIf F m Anywhere k (l₀ ++ L₁ a) (f a) (f' a') L₂) :
    SpellsIf F m P k l₀ (p >>= f) (q >>= f') L₂ := by
  intro s b s' hs run
  obtain ⟨a, s₁, first, rest⟩ := bind_ok.1 run
  exact (hp s a s₁ hs first).shift.and_then (fun a' same => hf a a' same s₁ b s' trivial rest)
    (fun hold _ => (Grade.IsWhole.phrase hold).2.2 _ _) Grade.piece_append

theorem map {h h' : α → β} [k.IsLoose] (hp : Spells m P .phrase [] p q L₁)
    (same : ∀ a a', m.Same a a' → m.Same (h a) (h' a')) (hl : ∀ a, L₂ (h a) = L₁ a) :
    Spells m P k [] (h <$> p) (h' <$> q) L₂ := by
  rw [map_eq_bind, map_eq_bind]
  exact hp.bind fun a a' hs => pure (same a a' hs) (hl a)

/-- What is made of a result is written as the result is. -/
theorem made {h h' : α → β} (hp : SpellsIf F m P k l₀ p q L₁)
    (same : ∀ a a', m.Same a a' → m.Same (h a) (h' a')) (hl : ∀ a, L₂ (h a) = L₁ a) :
    SpellsIf F m P k l₀ (p >>= fun a => Pure.pure (h a)) (q >>= fun a => Pure.pure (h' a)) L₂ := by
  intro s b s' hs run
  obtain ⟨a, s₁, first, done⟩ := bind_ok.1 run
  obtain ⟨rfl, rfl⟩ := pure_ok.1 done
  rw [hl]
  exact (hp s a s₁ hs first).map (same a)

theorem some_map [k.IsLoose] (hp : Spells m P .phrase [] p q L) :
    Spells m P k [] (some <$> p) (some <$> q) fun r => r.elim [] L :=
  hp.map (fun _ _ same => congrArg some same) fun _ => rfl

theorem ite {c : Prop} [Decidable c] {p' q' : Parser α} (h : SpellsIf F m P k l₀ p q L)
    (h' : SpellsIf F m P k l₀ p' q' L) :
    SpellsIf F m P k l₀ (if c then p else p') (if c then q else q') L := by
  split <;> assumption

theorem peek [k.IsWhole] {f f' : Option Token → Parser α}
    (h : ∀ t, P t → SpellsIf F m (· = t) k l₀ (f t) (f' t) L) :
    SpellsIf F m P k l₀ (Grammar.peek >>= f) (Grammar.peek >>= f') L := by
  intro s a s' hs run
  refine (h _ hs s a s' rfl run).of_head fun {u} head _ => ?_
  rw [peek_bind, head]

/-- It is decided by the next token. -/
theorem branch [k.IsWhole] {c : Option Token → Bool} {p₁ p₀ q₁ q₀ : Parser α}
    (hp : ∀ s : Reading, p s = (if c s.token? then p₁ else p₀) s)
    (hq : ∀ u : Reading, q u = (if c u.token? then q₁ else q₀) u)
    (yes : SpellsIf F m P k l₀ p₁ q₁ L) (no : SpellsIf F m P k l₀ p₀ q₀ L) :
    SpellsIf F m P k l₀ p q L := by
  intro s a s' hs run
  rw [hp] at run
  cases hc : c s.token? with
  | true =>
      rw [hc] at run
      refine (yes s a s' hs run).of_head fun {u} head _ => ?_
      rw [hq, head, hc]
      rfl
  | false =>
      rw [hc] at run
      refine (no s a s' hs run).of_head fun {u} head _ => ?_
      rw [hq, head, hc]
      rfl

/-- A question about the next token. -/
theorem ask [k.IsWhole] {c : Option Token → Bool} {question : Parser Bool} {f f' : Bool → Parser α}
    (hc : ∀ s : Reading, question s = .ok (c s.token?) s)
    (h : ∀ b, SpellsIf F m P k l₀ (f b) (f' b) L) :
    SpellsIf F m P k l₀ (question >>= f) (question >>= f') L := by
  intro s a s' hs run
  rw [bind_of_ok (hc s)] at run
  refine (h _ s a s' hs run).of_head fun {u} head _ => ?_
  rw [bind_of_ok (hc u), head]

theorem sees [k.IsWhole] {t : Token} {f f' : Bool → Parser α}
    (yes : SpellsIf F m (· = some t) k l₀ (f true) (f' true) L)
    (no : SpellsIf F m P k l₀ (f false) (f' false) L) :
    SpellsIf F m P k l₀ (Grammar.sees t >>= f) (Grammar.sees t >>= f') L := by
  intro s a s' hs run
  rw [sees_bind] at run
  by_cases ht : s.token? = some t
  · rw [show (s.token? == some t) = true by simpa using ht] at run
    refine (yes s a s' ht run).of_head fun {u} head _ => ?_
    rw [sees_bind, head, ht, beq_self_eq_true]
  · have hb : (s.token? == some t) = false := by simpa using ht
    rw [hb] at run
    refine (no s a s' hs run).of_head fun {u} head _ => ?_
    rw [sees_bind, head, hb]

theorem span [k.IsWhole] {f f' : Span → Parser α}
    (h : ∀ place place', m.Same place place' → SpellsIf F m P k l₀ (f place) (f' place') L) :
    SpellsIf F m P k l₀ (Grammar.span >>= f) (Grammar.span >>= f') L := by
  intro s a s' hs run
  obtain ⟨cs, rest, recorded, told⟩ := h _ _ (Same.refl s.span) s a s' hs run
  refine ⟨cs, rest, recorded, fun clean => ?_⟩
  obtain ⟨l₁, hl, w, g, -⟩ := told clean
  refine ⟨l₁, hl, w, g, fun admits => ?_⟩
  intro u cs' us copies hu follow ends
  have ne : cs ≠ [] := fun e => (Grade.IsWhole.phrase g).2.1 (by rw [e]; rfl)
  have same := copies.span ne rest hu
  exact (h _ _ same s a s' hs run).rereads clean admits rest hl copies hu follow ends

theorem note_left {rule : TieBreak} {place : Span} {f : Unit → Parser α}
    (h : SpellsIf F m P k l₀ (f ()) q L) :
    SpellsIf F m P k l₀ (Grammar.note rule place >>= f) q L := by
  intro s a s' hs run
  have rest := s.rest_note rule place
  refine (h (s.note rule place) a s' ?_ run).of_quiet rest (s.lastEnd_note rule place)
    (s.recorded_note rule place)
  rwa [Reading.token?, rest]

theorem note_right {rule : TieBreak} {place : Span} {f : Unit → Parser α}
    (h : SpellsIf F m P k l₀ p (f ()) L) :
    SpellsIf F m P k l₀ p (Grammar.note rule place >>= f) L :=
  fun s a s' hs run => (h s a s' hs run).quiet fun u => ⟨u.note rule place, rfl,
    u.rest_note rule place, u.lastEnd_note rule place, u.errors_note rule place⟩

/-- What is noted on either side says nothing. -/
theorem note {rule : TieBreak} {place place' : Span} {f f' : Unit → Parser α}
    (h : SpellsIf F m P k l₀ (f ()) (f' ()) L) :
    SpellsIf F m P k l₀ (Grammar.note rule place >>= f) (Grammar.note rule place' >>= f') L :=
  note_left (note_right h)

/-- What may be noted on either side says nothing. -/
theorem mayNote {c c' : Prop} [Decidable c] [Decidable c'] {rule : TieBreak} {place place' : Span}
    {f f' : Unit → Parser α} (h : SpellsIf F m P k l₀ (f ()) (f' ()) L) :
    SpellsIf F m P k l₀ (if c then Grammar.note rule place >>= f else f ())
      (if c' then Grammar.note rule place' >>= f' else f' ()) L := by
  have noted : SpellsIf F m P k l₀ (f ())
      (if c' then Grammar.note rule place' >>= f' else f' ()) L := by
    split
    · exact note_right h
    · exact h
  split
  · exact note_left noted
  · exact noted

theorem noteHere_left {rule : TieBreak} {f : Unit → Parser α}
    (h : SpellsIf F m P k l₀ (f ()) q L) :
    SpellsIf F m P k l₀ (Grammar.span >>= fun place => Grammar.note rule place >>= f) q L :=
  fun s a s' hs run => note_left h s a s' hs run

theorem noteHere_right {rule : TieBreak} {f : Unit → Parser α}
    (h : SpellsIf F m P k l₀ p (f ()) L) :
    SpellsIf F m P k l₀ p (Grammar.span >>= fun place => Grammar.note rule place >>= f) L :=
  fun s a s' hs run => (h s a s' hs run).quiet fun u => ⟨u.note rule u.span, rfl,
    u.rest_note rule u.span, u.lastEnd_note rule u.span, u.errors_note rule u.span⟩

/-- It is decided by whether a colon follows the next token. At the end of what is read
    again it may be missing, if nothing or no more than a note comes of it. -/
theorem colonFollows [k.IsWhole] {f f' : Bool → Parser α}
    (h : ∀ b, Spells m P k l₀ (f b) (f' b) L)
    (cut : (∀ s a s', f true s = .ok a s' → s.rest.length ≠ s'.rest.length + 1) ∨
      Spells m P k l₀ (f true) (f' false) L) :
    Spells m P k l₀ (Grammar.colonFollows >>= f) (Grammar.colonFollows >>= f') L := by
  intro s a s' hs run
  have decided : ∀ (f : Bool → Parser α) (u : Reading), (Grammar.colonFollows >>= f) u =
      f (u.tokenAt? 1 == some (.symbol .colon)) u := fun _ _ => rfl
  rw [decided] at run
  have same : ∀ {u : Reading}, (s.tokenAt? 1 = some (.symbol .colon) ↔
      u.tokenAt? 1 = some (.symbol .colon)) →
      (u.tokenAt? 1 == some (.symbol .colon)) = (s.tokenAt? 1 == some (.symbol .colon)) := by
    intro u second
    rw [Bool.eq_iff_iff, beq_iff_eq, beq_iff_eq, second]
  have spelled := h _ s a s' hs run
  by_cases colon : s.tokenAt? 1 = some (.symbol .colon)
  · rw [beq_iff_eq.2 colon] at run spelled
    rcases cut with more | missing
    · refine spelled.of_second fun {u} second => ?_
      have second := second.resolve_right fun one => more s a s' run one.1
      rw [decided, beq_iff_eq.2 (second.1 colon)]
    · refine spelled.either (missing s a s' hs run) fun u => ?_
      rw [decided]
      cases u.tokenAt? 1 == some (.symbol .colon)
      · exact .inr rfl
      · exact .inl rfl
  · refine spelled.of_second fun {u} second => ?_
    rw [decided, same (second.resolve_right fun one => colon one.2)]

theorem advance_with {t : Token} {f f' : Unit → Parser α} (lead : Grade.Leads t k' k)
    (h : SpellsIf F m Anywhere k' (l₀ ++ [t]) (f ()) (f' ()) L) :
    SpellsIf F m (· = some t) k l₀ (Grammar.advance >>= f) (Grammar.advance >>= f') L := by
  intro s a s' hs run
  exact SpelledIf.token lead hs (fun _ => rfl) (h s.advance a s' trivial run)

/-- A token that is there, and a piece after it. -/
theorem advance [k.IsLoose] {t : Token} {f f' : Unit → Parser α} (ht : t.isPlain)
    (h : SpellsIf F m Anywhere .piece (l₀ ++ [t]) (f ()) (f' ()) L) :
    SpellsIf F m (· = some t) k l₀ (Grammar.advance >>= f) (Grammar.advance >>= f') L :=
  advance_with (Grade.leads_plain ht) h

theorem expect_with {t : Token} {f f' : Unit → Parser α} (lead : Grade.Leads t k' k)
    (h : SpellsIf F m Anywhere k' (l₀ ++ [t]) (f ()) (f' ()) L) :
    SpellsIf F m P k l₀ (Grammar.expect t >>= f) (Grammar.expect t >>= f') L := by
  intro s a s' _ run
  obtain ⟨_, s₁, first, rest⟩ := bind_ok.1 run
  obtain ⟨ht, rfl⟩ := expect_ok.1 first
  exact SpelledIf.token lead ht (fun hu => bind_of_ok (expect_ok.2 ⟨hu, rfl⟩))
    (h s.advance a s' trivial rest)

/-- A token that must be there, and a piece after it. -/
theorem expect [k.IsLoose] {t : Token} {f f' : Unit → Parser α} (ht : t.isPlain)
    (h : SpellsIf F m Anywhere .piece (l₀ ++ [t]) (f ()) (f' ()) L) :
    SpellsIf F m P k l₀ (Grammar.expect t >>= f) (Grammar.expect t >>= f') L :=
  expect_with (Grade.leads_plain ht) h

/-- A token that may be there. -/
theorem accept [k.IsWhole] {t : Token} {f f' : Bool → Parser α}
    (yes : SpellsIf F m P k l₀ (Grammar.expect t >>= fun _ => f true)
      (Grammar.expect t >>= fun _ => f' true) L)
    (no : SpellsIf F m P k l₀ (f false) (f' false) L) :
    SpellsIf F m P k l₀ (Grammar.accept t >>= f) (Grammar.accept t >>= f') L := by
  have there : ∀ (u : Reading) (f : Bool → Parser α), u.token? = some t →
      (Grammar.accept t >>= f) u = (Grammar.expect t >>= fun _ => f true) u := by
    intro u f ht
    rw [bind_of_ok (accept_ok.2 (.inl ⟨rfl, ht, rfl⟩)), bind_of_ok (expect_ok.2 ⟨ht, rfl⟩)]
  have gone : ∀ (u : Reading) (f : Bool → Parser α), u.token? ≠ some t →
      (Grammar.accept t >>= f) u = f false u := fun u f ht =>
    bind_of_ok (accept_ok.2 (.inr ⟨rfl, ht, rfl⟩))
  intro s a s' hs run
  by_cases ht : s.token? = some t
  · rw [there s f ht] at run
    exact (yes s a s' hs run).of_head fun {u} head _ => there u f' (head.trans ht)
  · rw [gone s f ht] at run
    exact (no s a s' hs run).of_head fun {u} head _ => gone u f' (by rwa [head])

theorem located [k.IsWhole] (h : SpellsIf F m P k l₀ p q L) :
    SpellsIf F m P k l₀ (Grammar.located p) (Grammar.located q) fun r => L r.1 := by
  intro s r s' hs run
  obtain ⟨first, place⟩ := located_ok.1 run
  rw [show r = (r.1, s'.spanFrom s.span.start) from Prod.ext rfl place]
  exact (h s r.1 s' hs first).located

/-- A node is made of what was read and its span, which is not written. -/
theorem node {f f' : α × Span → Parser β} (h : α × Span → β)
    (hp : Spells m P .phrase [] p q fun a => L₂ (h (a, Span.zero)))
    (hf : ∀ r, f r = Pure.pure (h r)) (hf' : ∀ r, f' r = Pure.pure (h r))
    (hh : ∀ r, respan m.move (h r) = h (respan m.move r))
    (hl : ∀ a place, L₂ (h (a, place)) = L₂ (h (a, Span.zero))) :
    Spells m P .phrase [] (Grammar.located p >>= f) (Grammar.located q >>= f') L₂ := by
  refine (located hp).bind fun r r' same => ?_
  rw [hf, hf']
  exact pure (same.map hh) (hl r.1 r.2)

/-- It is decided by what is seen ahead, where not to go on is the same for all that may
    follow. -/
theorem choose {c : Option Token × Bool → Bool} {p₁ p₀ q₁ q₀ : Parser α}
    (hF : ∀ {ts us}, F ts us → c (look ts) = false → c (look us) = false)
    (hp : ∀ s : Reading, p s = (if c (look s.tokens) then p₁ else p₀) s)
    (hq : ∀ u : Reading, q u = (if c (look u.tokens) then q₁ else q₀) u)
    (yes : ∀ s a s', P s.token? → c (look s.tokens) → p₁ s = .ok a s' →
      SpelledIf F m .phrase l₀ (L a) s a s' q₁)
    (no : SpellsIf F m P .piece l₀ p₀ q₀ L) : SpellsIf F m P .piece l₀ p q L := by
  intro s a s' hs run
  rw [hp] at run
  cases hc : c (look s.tokens) with
  | true =>
      rw [hc] at run
      have spelled := yes s a s' hs hc run
      refine (spelled.of_seen ?_).weaken id Grade.IsLoose.loosen
      intro u xs ys us hold hs hu _ _
      rw [hs, hold.2.2 s'.tokens us, ← hu] at hc
      rw [hq, hc]
      rfl
  | false =>
      rw [hc] at run
      refine (no s a s' hs run).of_look fun {u} seen => ?_
      have stays : c (look u.tokens) = false := by
        rcases seen with same | follow
        · rwa [← same]
        · exact hF follow hc
      rw [hq, stays]
      rfl

/-- A token that may come next, and what it introduces. -/
theorem maySee {t : Token} {f f' : Bool → Parser α} (shut : t.isShut = false)
    (declares : t.startsDeclaration = false)
    (yes : Spells m (· = some t) .phrase l₀ (f true) (f' true) L)
    (no : Spells m P .piece l₀ (f false) (f' false) L) :
    Spells m P .piece l₀ (Grammar.sees t >>= f) (Grammar.sees t >>= f') L := by
  have run : ∀ (f : Bool → Parser α) (s : Reading), (Grammar.sees t >>= f) s =
      (if (look s.tokens).1 == some t then f true else f false) s := by
    intro f s
    rw [sees_bind, head_look, Reading.head?_tokens]
    cases s.token? == some t <;> rfl
  refine choose (c := fun seen => seen.1 == some t) (fun follow => follow.stops
    (c := fun seen => seen.1 == some t) rfl fun t' ht => ?_) (run f) (run f')
    (fun s a s' _ seen first => ?_) no
  · rw [beq_eq_false_iff_ne]
    rintro ⟨⟩
    simp [shut, declares] at ht
  · rw [head_look, Reading.head?_tokens, beq_iff_eq] at seen
    exact yes s a s' seen first

/-- A token that may come next, and what stands after it. -/
theorem mayAccept {t : Token} {f f' : Bool → Parser α} (shut : t.isShut = false)
    (declares : t.startsDeclaration = false)
    (yes : Spells m (· = some t) .phrase l₀ (Grammar.expect t >>= fun _ => f true)
      (Grammar.expect t >>= fun _ => f' true) L)
    (no : Spells m P .piece l₀ (f false) (f' false) L) :
    Spells m P .piece l₀ (Grammar.accept t >>= f) (Grammar.accept t >>= f') L := by
  have run : ∀ f : Bool → Parser α, Grammar.accept t >>= f = Grammar.sees t >>= fun b =>
      if b then Grammar.expect t >>= fun _ => f true else f false := by
    intro f
    funext s
    rw [sees_bind]
    by_cases ht : s.token? = some t
    · rw [bind_of_ok (accept_ok.2 (.inl ⟨rfl, ht, rfl⟩)), show (s.token? == some t) = true by simpa using ht,
        if_pos rfl, bind_of_ok (expect_ok.2 ⟨ht, rfl⟩)]
    · rw [bind_of_ok (accept_ok.2 (.inr ⟨rfl, ht, rfl⟩)), show (s.token? == some t) = false by simpa using ht]
      rfl
  rw [run, run]
  exact maySee shut declares yes no

/-- What is read if a token that it begins with comes next. -/
theorem optional {c : Token → Bool} {step step' : Parser (Option α)}
    (hc : ∀ t : Token, t.isShut ∨ t.startsDeclaration → c t = false)
    (hp : ∀ s : Reading, step s = (if s.token?.any c then some <$> p else Pure.pure none) s)
    (hq : ∀ u : Reading, step' u = (if u.token?.any c then some <$> q else Pure.pure none) u)
    (h : Spells m P .phrase [] p q L) :
    Spells m P .piece [] step step' fun r => r.elim [] L := by
  refine choose (c := fun seen => seen.1.any c) (fun follow => follow.stops (c := fun seen => seen.1.any c) rfl hc)
    (fun s => ?_) (fun u => ?_) (fun s a s' hs _ run => h.some_map s a s' hs run)
    (pure (Same.refl none) rfl)
  · rw [hp, head_look, Reading.head?_tokens]
  · rw [hq, head_look, Reading.head?_tokens]

/-- What a marker introduces. -/
theorem after {marker : Token} (lead : Grade.Leads marker .phrase .phrase)
    (shut : marker.isShut = false) (declares : marker.startsDeclaration = false)
    (h : Spells m Anywhere .phrase [] p q L) :
    Spells m P .piece [] (Grammar.after marker p) (Grammar.after marker q)
      fun r => r.elim [] fun a => marker :: L a := by
  have hc : ∀ t : Token, t.isShut ∨ t.startsDeclaration → (t == marker) = false := by
    intro t ht
    rw [beq_eq_false_iff_ne]
    rintro rfl
    simp [shut, declares] at ht
  exact optional (c := (· == marker)) hc (after_run marker p) (after_run marker q)
    (expect_with lead (h.shift fun _ => rfl))

end SpellsIf

end Mim
