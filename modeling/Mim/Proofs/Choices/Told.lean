import Mim.Proofs.Choices.Calm
import Mim.Proofs.Grouping.Grammar
import Mim.Proofs.Notes

/-! # What has been told so far

The rules that a clean run tells of are followed from one reading to the next. They stand in
the order of the text, and the one by which a declaration ends an application is only told of
where a declaration stands behind something that could go on.
-/

namespace Mim

open Grammar
open TieBreak (InPlace inPlace_append misplaced)

variable {α β : Type} {items : List Item} {l : List TieBreak} {rule : TieBreak}
  {s : Reading} {t : Token} {place : Span}

/-- The rule that a diagnostic tells of. -/
def Diagnostic.rule? (d : Diagnostic) : Option TieBreak :=
  match d.cause with
  | .tieBreak rule => some rule
  | .lexical _ | .grammar _ => none

namespace TieBreak

/-- The rules that are told of whatever punctuation is left out. -/
def lasting (rules : List TieBreak) : List TieBreak :=
  rules.filter (· ≠ .declarationEndsApplication)

@[simp] theorem lasting_append (rules rules' : List TieBreak) :
    lasting (rules ++ rules') = lasting rules ++ lasting rules' := List.filter_append ..

@[simp] theorem lasting_misplaced (next : Option Token) : lasting (misplaced next) = [] := by
  unfold misplaced
  split <;> rfl

theorem lasting_of_inPlace {rules : List TieBreak} (h : InPlace rules) : lasting rules = rules := by
  refine List.filter_eq_self.2 fun rule mem => decide_eq_true ?_
  rintro rfl
  exact h mem

end TieBreak

open TieBreak (lasting lasting_append)

/-- No bar keeps a declaration apart from `with`. -/
def Token.Unbarred (ts : List Token) : Prop :=
  ∀ t, [.keyword .with_, .symbol .pipe, t] <:+: ts → t.startsDeclaration = false

namespace Reading

/-- The rules told of, in their order. -/
def rules (s : Reading) : List TieBreak := s.diagnostics.filterMap Diagnostic.rule?

/-- No error has been recorded. -/
def IsClean (s : Reading) : Prop := ∀ d ∈ s.recorded, d.isError = false

theorem IsClean.of_suffix {s' : Reading} (h : s'.IsClean) (recorded : s.recorded <:+ s'.recorded) :
    s.IsClean := fun d hd => h d (recorded.subset hd)

theorem rules_advance : s.advance.rules = s.rules := by
  rw [rules, diagnostics, recorded_advance]
  rfl

theorem rules_note (new : ¬ s.Chose rule place) : (s.note rule place).rules = s.rules ++ [rule] := by
  rw [rules, diagnostics, recorded_note_of_new new, List.reverse_cons, List.filterMap_append]
  rfl

/-- What is recorded stands in the order of the text. -/
structure Ordered (s : Reading) : Prop where
  recorded : s.recorded.Pairwise fun d e => e.span.start ≤ d.span.start
  passed : ∀ d ∈ s.recorded, ∀ place ∈ s.places, d.span.start ≤ place.start
  places : s.places.Pairwise fun a b => a.start ≤ b.start

namespace Ordered

theorem advance (h : s.Ordered) : s.advance.Ordered where
  recorded := by
    rw [recorded_advance]
    exact h.recorded
  passed d hd place hp := by
    rw [recorded_advance] at hd
    rw [places_advance] at hp
    exact h.passed d hd place (List.mem_of_mem_tail hp)
  places := by
    rw [places_advance]
    exact h.places.sublist (List.tail_sublist _)

theorem note (h : s.Ordered) (new : ¬ s.Chose rule place)
    (behind : ∀ d ∈ s.recorded, d.span.start ≤ place.start)
    (ahead : ∀ next ∈ s.places, place.start ≤ next.start) : (s.note rule place).Ordered where
  recorded := by
    rw [recorded_note_of_new new]
    exact List.pairwise_cons.2 ⟨behind, h.recorded⟩
  passed d hd next hn := by
    rw [recorded_note_of_new new] at hd
    rw [places_note] at hn
    rcases List.mem_cons.1 hd with rfl | hd
    · exact ahead next hn
    · exact h.passed d hd next hn
  places := by
    rw [places_note]
    exact h.places

/-- The place of the next token comes after what is recorded and before what is left. -/
theorem span (h : s.Ordered) (next : s.token? = some t) :
    (∀ d ∈ s.recorded, d.span.start ≤ s.span.start) ∧
      ∀ place ∈ s.places, s.span.start ≤ place.start := by
  have places := h.places
  have passed := h.passed
  rw [places_of_token? next] at places passed ⊢
  constructor
  · exact fun d hd => passed d hd _ List.mem_cons_self
  · exact fun place hp => (List.mem_cons.1 hp).elim (fun e => e ▸ Nat.le_refl _)
      ((List.pairwise_cons.1 places).1 place)

end Ordered

/-- What a clean run over some items has told of so far. -/
structure Told (items : List Item) (l : List TieBreak) (s : Reading) : Prop where
  single : s.Single
  ordered : s.Ordered
  within : s.rest <:+ items
  whole : ∀ i ∈ items, ∀ reason, i.token ≠ .error reason
  told : lasting s.rules = lasting l
  placed : Token.Unbarred (items.map Item.token) → InPlace l
  calm : Token.Calm (items.map Item.token) → ∀ place, ¬ s.Chose .declarationEndsApplication place

/-- Besides, something has just been read. -/
structure ToldFresh (items : List Item) (l : List TieBreak) (s : Reading) : Prop
    extends Told items l s where
  fresh : s.Fresh

/-- Besides, what has been read could go on. -/
structure ToldEnd (items : List Item) (l : List TieBreak) (s : Reading) : Prop
    extends ToldFresh items l s where
  behind : ∃ i, i :: s.rest <:+ items ∧ i.token.ends

namespace Told

/-- What lasts is all that counts, and whether all is in place. -/
theorem congr {l' : List TieBreak} (h : Told items l s) (lasts : lasting l' = lasting l)
    (inPlace : Token.Unbarred (items.map Item.token) → InPlace l → InPlace l') :
    Told items l' s where
  single := h.single
  ordered := h.ordered
  within := h.within
  whole := h.whole
  told := h.told.trans lasts.symm
  placed bars := inPlace bars (h.placed bars)
  calm := h.calm

theorem clean_rest (h : Told items l s) : ∀ i ∈ s.rest, ∀ reason, i.token ≠ .error reason :=
  fun i hi => h.whole i (h.within.subset hi)

theorem advance (h : Told items l s) : ToldFresh items l s.advance where
  single := h.single.advance.toSingle
  ordered := h.ordered.advance
  within := by
    refine List.IsSuffix.trans ?_ h.within
    unfold Reading.advance
    split
    · next eq => simp [eq]
    · exact List.suffix_refl _
  whole := h.whole
  told := by rw [rules_advance, h.told]
  placed := h.placed
  calm ts place chose := h.calm ts place (chose_advance.1 chose)
  fresh := h.single.advance

/-- A token that ends what could go on. -/
theorem close (h : Told items l s) (next : s.token? = some t) (ht : t.ends) :
    ToldEnd items l s.advance where
  toToldFresh := h.advance
  behind := by
    obtain ⟨i, rest, split, rfl⟩ := token?_eq_some.1 next
    refine ⟨i, ?_, ht⟩
    rw [advance_eq split, ← split]
    exact h.within

theorem note (h : Told items l s) (new : ¬ s.Chose rule place)
    (lasts : rule ≠ .declarationEndsApplication) (single : (s.note rule place).Single)
    (ordered : (s.note rule place).Ordered) : Told items (l ++ [rule]) (s.note rule place) where
  single := single
  ordered := ordered
  within := by
    rw [rest_note]
    exact h.within
  whole := h.whole
  told := by rw [rules_note new, lasting_append, lasting_append, h.told]
  placed bars := (inPlace_append _ _).2 ⟨h.placed bars, by simpa [TieBreak.InPlace] using lasts.symm⟩
  calm ts place chose := by
    rcases chose_note.1 chose with chose | ⟨rfl, -⟩
    · exact h.calm ts place chose
    · exact lasts rfl

/-- The type of a literal, once it has been read with the colon behind it. -/
theorem literal (h : Told items l s) (next : s.token? = some t) :
    ToldFresh items (l ++ [.typeToLiteral]) (s.advance.advance.note .typeToLiteral s.span) := by
  have told := h.advance.toTold.advance.toTold
  have fresh := h.single.note_literal next
  have ⟨behind, ahead⟩ := h.ordered.span next
  have new : ¬ s.advance.advance.Chose .typeToLiteral s.span := fun chose =>
    h.single.literal (chose_advance.1 (chose_advance.1 chose)) (h.single.span_not_behind next).1
  refine ⟨told.note new nofun fresh.toSingle (told.ordered.note new ?_ ?_), fresh⟩
  · rw [recorded_advance, recorded_advance]
    exact behind
  · rw [places_advance, places_advance]
    exact fun place hp => ahead place (List.mem_of_mem_tail (List.mem_of_mem_tail hp))

/-- The parenthesis behind an annex, as soon as the annex has been read. -/
theorem annex {path : AnnexPath} (h : Told items l s) (next : s.token? = some (.annex path))
    (paren : s.advance.token? = some t) : ToldEnd items (l ++ [.annexArgumentOverSubtags])
      (s.advance.note .annexArgumentOverSubtags s.advance.span) := by
  have told := h.advance.toTold
  have fresh := h.single.note_annex paren
  have ⟨behind, ahead⟩ := told.ordered.span paren
  have new : ¬ s.advance.Chose .annexArgumentOverSubtags s.advance.span := fun chose =>
    h.single.clear chose (told.single.span_not_behind paren).1
  refine ⟨⟨told.note new nofun fresh.toSingle (told.ordered.note new behind ahead), fresh⟩, ?_⟩
  rw [rest_note]
  exact (h.close next rfl).behind

end Told

/-- Choices of several rules at the next token. -/
theorem ToldFresh.notes (h : ToldFresh items l s) (next : s.token? = some t)
    (more : List TieBreak) (nodup : more.Nodup) (ahead : ∀ rule ∈ more, rule.isAhead) :
    Told items (l ++ more) (more.foldl (fun s' rule => s'.note rule s.span) s) := by
  suffices go : ∀ (u : Reading) (l : List TieBreak), Told items l u → u.places = s.places →
      u.token? = s.token? → u.span = s.span → (∀ rule ∈ more, ¬ u.Chose rule s.span) →
      Told items (l ++ more) (more.foldl (fun s' rule => s'.note rule s.span) u) from
    go s l h.toTold rfl rfl rfl fun rule mem => h.fresh.not_chose next (ahead rule mem)
  induction more with
  | nil => exact fun u l hu _ _ _ _ => by simpa using hu
  | cons rule more ih =>
      intro u l hu places token span new
      have ⟨apart, nodup⟩ := List.nodup_cons.1 nodup
      have ⟨first, others⟩ := List.forall_mem_cons.1 ahead
      have ⟨free, rest⟩ := List.forall_mem_cons.1 new
      have behind : s.span ∉ u.places.tail := places ▸ (h.single.span_not_behind next).2
      have lasts : rule ≠ .declarationEndsApplication := by
        rintro rfl
        cases first
      have single : (u.note rule s.span).Single := by
        apply hu.single.note free behind
        · rintro rfl
          cases first
        · rintro rfl
          cases first
      have ⟨passed, left⟩ := hu.ordered.span (token.trans next)
      rw [span] at passed left
      have noted := hu.note free lasts single (hu.ordered.note free passed left)
      rw [List.append_cons]
      refine ih nodup others (u.note rule s.span) _ noted ((places_note ..).trans places) ?_ ?_ ?_
      · rwa [token?, rest_note]
      · rw [← span, Reading.span, rest_note, lastEnd_note]
        rfl
      · rintro rule' mem chose
        rcases chose_note.1 chose with chose | ⟨rfl, -⟩
        · exact rest rule' mem chose
        · exact apart mem

theorem ToldEnd.congr {l' : List TieBreak} (h : ToldEnd items l s) (lasts : lasting l' = lasting l)
    (inPlace : Token.Unbarred (items.map Item.token) → InPlace l → InPlace l') :
    ToldEnd items l' s := ⟨⟨h.toTold.congr lasts inPlace, h.fresh⟩, h.behind⟩

/-- What could go on is looked at for an operator. -/
theorem ToldEnd.noted (h : ToldEnd items l s) : ToldEnd items l s.noted := by
  have fresh := h.fresh.noted
  unfold Reading.noted at fresh ⊢
  split
  · next declares =>
      rw [if_pos declares] at fresh
      obtain ⟨t, next, declares⟩ := (Option.any_eq_true ..).1 declares
      by_cases last : s.recorded.head? = some ⟨.tieBreak .declarationEndsApplication, s.span⟩
      · rwa [Reading.note, if_pos last]
      have new : ¬ s.Chose .declarationEndsApplication s.span := by
        intro chose
        rcases h.fresh.next chose (h.single.span_not_behind next).1 with ⟨⟨⟩⟩ | ⟨-, head⟩
        exact last head
      obtain ⟨passed, left⟩ := h.ordered.span next
      refine ⟨⟨⟨fresh.toSingle, h.ordered.note new passed left, ?_, h.whole, ?_, h.placed, ?_⟩,
        fresh⟩, ?_⟩
      · rw [rest_note]
        exact h.within
      · rw [rules_note new, lasting_append, h.told]
        exact List.append_nil _
      · -- nothing that begins a declaration stands behind what could go on
        intro calm
        obtain ⟨i, ⟨before, split⟩, ends⟩ := h.behind
        obtain ⟨j, rest, hj, rfl⟩ := token?_eq_some.1 next
        have follows : Token.Follows i.token j.token := by
          rw [← split, hj, List.map_append] at calm
          exact List.IsChain.rel (List.isChain_append.1 calm).2.1
        rw [follows ends] at declares
        cases declares
      · rw [rest_note]
        exact h.behind
  · exact h

end Reading

open Reading (Told ToldFresh ToldEnd)

namespace Grammar

/-- A run that records no error began where none was recorded, and if `P` held there, it leads
    to where `Q` holds of what it gives. -/
def Tells (P : Reading → Prop) (p : Parser α) (Q : α → Reading → Prop) : Prop :=
  ∀ ⦃s a s'⦄, p s = .ok a s' → s'.IsClean → s.IsClean ∧ (P s → Q a s')

namespace Tells

variable {P P' : Reading → Prop} {Q Q' R : α → Reading → Prop} {T : β → Reading → Prop}

theorem pure {a : α} (h : ∀ s, P s → Q a s) : Tells P (Pure.pure a) Q := by
  intro s b s' run clean
  obtain ⟨rfl, rfl⟩ := pure_ok.1 run
  exact ⟨clean, h s⟩

theorem bind {p : Parser α} {f : α → Parser β} (hp : Tells P p R) (hf : ∀ a, Tells (R a) (f a) T) :
    Tells P (p >>= f) T := by
  intro s b s' run clean
  obtain ⟨a, s₁, first, rest⟩ := bind_ok.1 run
  have ⟨clean₁, told⟩ := hf a rest clean
  have ⟨clean₀, told₀⟩ := hp first clean₁
  exact ⟨clean₀, fun hs => told (told₀ hs)⟩

theorem mono {p : Parser α} (h : Tells P p Q) (hP : ∀ s, P' s → P s)
    (hQ : ∀ a s, Q a s → Q' a s) : Tells P' p Q' := by
  intro s a s' run clean
  have ⟨clean₀, told⟩ := h run clean
  exact ⟨clean₀, fun hs => hQ a s' (told (hP s hs))⟩

theorem pre {p : Parser α} (h : Tells P p Q) (hP : ∀ s, P' s → P s) : Tells P' p Q :=
  h.mono hP fun _ _ => id

theorem post {p : Parser α} (h : Tells P p Q) (hQ : ∀ a s, Q a s → Q' a s) : Tells P p Q' :=
  h.mono (fun _ => id) hQ

/-- What holds of every clean run of a step holds besides. -/
theorem besides {p : Parser α} (h : Tells P p Q)
    (hR : ∀ {s a s'}, p s = .ok a s' → s'.IsClean → P s → R a s') :
    Tells P p fun a s => Q a s ∧ R a s := by
  intro s a s' run clean
  have ⟨clean₀, told⟩ := h run clean
  exact ⟨clean₀, fun hs => ⟨told hs, hR run clean hs⟩⟩

/-- What is the case before a step may be named. -/
theorem given {p : Parser α} {γ : Type} (f : Reading → γ)
    (h : ∀ c, Tells (fun s => P s ∧ f s = c) p Q) : Tells P p Q := by
  intro s a s' run clean
  have ⟨clean₀, told⟩ := h (f s) run clean
  exact ⟨clean₀, fun hs => told ⟨hs, rfl⟩⟩

/-- A step that cannot fail. -/
theorem move {p : Parser α} {v : Reading → α} {m : Reading → Reading}
    (run : ∀ s, p s = .ok (v s) (m s)) (recorded : ∀ s, s.recorded <:+ (m s).recorded)
    (h : ∀ s, P s → Q (v s) (m s)) : Tells P p Q := by
  intro s a s' done clean
  rw [run] at done
  cases done
  exact ⟨clean.of_suffix (recorded s), h s⟩

theorem advance {Q : Reading → Prop} (h : ∀ s, P s → Q s.advance) :
    Tells P Grammar.advance fun _ => Q :=
  move (v := fun _ => ()) (fun _ => rfl) (fun s => by rw [s.recorded_advance]) h

theorem note {Q : Reading → Prop} {rule : TieBreak} {place : Span}
    (h : ∀ s, P s → Q (s.note rule place)) : Tells P (Grammar.note rule place) fun _ => Q :=
  move (v := fun _ => ()) (fun _ => rfl) (fun s => s.recorded_note rule place) h

/-- A step that only looks, with what it sees. -/
theorem see {p : Parser α} {f : α → Parser β} {v : Reading → α} (run : ∀ s, p s = .ok (v s) s)
    (hf : ∀ a, Tells (fun s => P s ∧ v s = a) (f a) T) : Tells P (p >>= f) T :=
  bind (R := fun a s => P s ∧ v s = a) (move run (fun _ => List.suffix_refl _) fun _ hs => ⟨hs, rfl⟩) hf

theorem peek {f : Option Token → Parser β}
    (h : ∀ t, Tells (fun s => P s ∧ s.token? = t) (f t) T) : Tells P (Grammar.peek >>= f) T :=
  see (fun _ => rfl) h

theorem sees {t : Token} {f : Bool → Parser β}
    (yes : Tells (fun s => P s ∧ s.token? = some t) (f true) T)
    (no : Tells (fun s => P s ∧ s.token? ≠ some t) (f false) T) :
    Tells P (Grammar.sees t >>= f) T := by
  refine see (v := fun s => s.token? == some t) (fun _ => rfl) fun seen => ?_
  cases seen with
  | true => exact yes.pre fun s hs => ⟨hs.1, beq_iff_eq.1 hs.2⟩
  | false => exact no.pre fun s hs => ⟨hs.1, beq_eq_false_iff_ne.1 hs.2⟩

theorem accept {t : Token} {f : Bool → Parser β} {S : Reading → Prop}
    (next : ∀ s, P s → s.token? = some t → S s.advance) (yes : Tells S (f true) T)
    (no : Tells (fun s => P s ∧ s.token? ≠ some t) (f false) T) :
    Tells P (Grammar.accept t >>= f) T := by
  intro s b s' run clean
  obtain ⟨taken, s₁, first, rest⟩ := bind_ok.1 run
  rcases accept_ok.1 first with ⟨rfl, ht, rfl⟩ | ⟨rfl, ht, rfl⟩
  · have ⟨clean₁, told⟩ := yes rest clean
    rw [Reading.IsClean, s.recorded_advance] at clean₁
    exact ⟨clean₁, fun hs => told (next s hs ht)⟩
  · have ⟨clean₁, told⟩ := no rest clean
    exact ⟨clean₁, fun hs => told ⟨hs, ht⟩⟩

theorem expect {t : Token} {Q : Reading → Prop} (h : ∀ s, P s → s.token? = some t → Q s.advance) :
    Tells P (Grammar.expect t) fun _ => Q := by
  intro s _ s' run clean
  obtain ⟨ht, rfl⟩ := expect_ok.1 run
  rw [Reading.IsClean, s.recorded_advance] at clean
  exact ⟨clean, fun hs => h s hs ht⟩

theorem ite {c : Prop} [Decidable c] {p q : Parser α} (hp : Tells P p Q) (hq : Tells P q Q) :
    Tells P (if c then p else q) Q := by
  split
  · exact hp
  · exact hq

theorem unexpected {expected : String} : Tells P (Grammar.unexpected expected : Parser α) Q :=
  fun _ _ _ run => nomatch run

theorem invalid {message : String} {place : Span} :
    Tells P (Grammar.invalid message place : Parser α) Q :=
  fun _ _ _ run => nomatch run

/-- The last step, and what is made of it. -/
theorem last {p : Parser α} {f : α → β} (hp : Tells P p R) (h : ∀ a s, R a s → T (f a) s) :
    Tells P (p >>= fun a => Pure.pure (f a)) T := hp.bind fun a => pure (h a)

theorem map {p : Parser α} {f : α → β} (hp : Tells P p R) (h : ∀ a s, R a s → T (f a) s) :
    Tells P (f <$> p) T := by
  rw [map_eq_bind]
  exact hp.last h

theorem located {p : Parser α} (hp : Tells P p Q) :
    Tells P (Grammar.located p) fun a => Q a.1 := by
  refine see (fun _ => rfl) fun place => (hp.pre fun _ => And.left).bind fun a => ?_
  exact see (v := id) (fun _ => rfl) fun _ => pure fun _ => And.left

/-- What a step reads and where it stood make a node. -/
theorem node {p : Parser α} {f : α × Span → β} (hp : Tells P p R)
    (h : ∀ a place s, R a s → T (f (a, place)) s) :
    Tells P (Grammar.located p >>= fun a => Pure.pure (f a)) T := hp.located.last fun a => h a.1 a.2

theorem after {marker : Token} {p : Parser α} {S : Reading → Prop} {Q : Option α → Reading → Prop}
    (next : ∀ s, P s → s.token? = some marker → S s.advance) (hp : Tells S p R)
    (yes : ∀ a s, R a s → Q (some a) s) (no : ∀ s, P s → s.token? ≠ some marker → Q none s) :
    Tells P (Grammar.after marker p) Q :=
  accept next (hp.map yes) (pure fun s hs => no s hs.1 hs.2)

/-- A loop, by what holds when some have been read. -/
theorem many {step : Parser (Option α)} {I : List α → Reading → Prop}
    (h : ∀ as, Tells (I as) step fun r => r.elim (I as) fun a => I (as ++ [a])) :
    Tells (I []) (Grammar.many step) I := by
  suffices upTo : ∀ n as, Tells (I as) (manyUpTo step n) fun bs => I (as ++ bs) from
    see (v := id) (fun _ => rfl) fun s => (upTo (s.rest.length + 1) []).pre fun _ => And.left
  intro n
  induction n with
  | zero => exact fun as => pure fun s hs => by simpa using hs
  | succ n ih =>
      intro as
      refine (h as).bind fun r => ?_
      cases r with
      | none => exact pure fun s hs => by simpa using hs
      | some a => exact (ih (as ++ [a])).last fun bs s hs => by simpa using hs

/-- A loop that changes nothing of what holds. -/
theorem loop {step : Parser (Option α)} (h : Tells P step fun _ => P) :
    Tells P (Grammar.many step) fun _ => P :=
  many (I := fun _ => P) fun _ => h.post fun r s hs => by cases r <;> exact hs

theorem commaList {close : Token} {element : Parser α} {I : List α → Reading → Prop}
    (h : ∀ as, Tells (I as) element fun a => I (as ++ [a]))
    (comma : ∀ as s, I as s → s.token? = some (.symbol .comma) → I as s.advance) :
    Tells (I []) (Grammar.commaList close element) I := by
  suffices upTo : ∀ n as, Tells (I as) (commaListUpTo close element n) fun bs => I (as ++ bs) from
    see (v := id) (fun _ => rfl) fun s => (upTo (s.rest.length + 1) []).pre fun _ => And.left
  intro n
  induction n with
  | zero => exact fun as => pure fun s hs => by simpa using hs
  | succ n ih =>
      intro as
      refine sees (pure fun s hs => by simpa using hs.1) ?_
      refine ((h as).pre fun _ => And.left).bind fun a => accept (comma _) ?_ ?_
      · exact (ih (as ++ [a])).last fun bs s hs => by simpa using hs
      · exact pure fun s hs => hs.1

theorem grow {step : α → Parser (Option α)} {I : α → Reading → Prop}
    (h : ∀ a, Tells (I a) (step a) fun r => r.elim (I a) I) (a : α) :
    Tells (I a) (Grammar.grow step a) I := by
  suffices upTo : ∀ n a, Tells (I a) (growUpTo step n a) I from
    see (v := id) (fun _ => rfl) fun s => (upTo (s.rest.length + 1) a).pre fun _ => And.left
  intro n
  induction n with
  | zero => exact fun a => pure fun _ => id
  | succ n ih =>
      intro a
      refine (h a).bind fun r => ?_
      cases r with
      | none => exact pure fun _ => id
      | some b => exact ih b

/-- What is read begins with the next token. -/
theorem opening [Spanned α] {p q : Parser α} {L : α → Layout} {t : Option Token}
    (h : Tells P p Q) (told : ∀ s, P s → Told items l s)
    (spells : Spells .exact Simulation.Anywhere .phrase [] p q fun a => (L a).tokens) :
    Tells (fun s => P s ∧ s.token? = t) p fun a s => Q a s ∧ (L a).opening = t := by
  refine (h.pre fun _ => And.left).besides fun {s a s'} run clean ⟨hs, next⟩ => ?_
  obtain ⟨cs, rest, -, written⟩ := spells s a s' trivial run
  obtain ⟨l, hl, -, ⟨mirrors, ne, -⟩, -⟩ := written ⟨(told s hs).clean_rest, clean⟩
  obtain rfl : (L a).tokens = l := hl
  rw [Layout.opening, ← mirrors.head, ← next, ← Reading.head?_tokens, Reading.tokens, rest,
    List.map_append, Token.head?_append ne]

end Tells

end Grammar

end Mim
