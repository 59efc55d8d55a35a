import Mim.Proofs.Node
import Mim.Proofs.Progress

/-! # Trees over the tokens they were read from

A rule that succeeds has read some tokens, and the nodes of its result lie over them: one
after the other, each from the start of a token to the end of a token, with its own parts
inside. There is a placeholder among them just if something went wrong.
-/

namespace Mim

open Grammar
open Simulation (Anywhere)

/-- A span from the start of the first of some items to the end of the last. -/
def Span.Over (place : Span) (cs : List Item) : Prop :=
  ∃ i j, cs.head? = some i ∧ cs.getLast? = some j ∧ place.start = i.span.start ∧
    (i.span.start ≤ j.span.stop → place.stop = j.span.stop)

/-- A step is taken on its own result any number of times. -/
inductive Grammar.Reaches {α : Type} (step : α → Parser (Option α)) :
    α → Reading → α → Reading → Prop where
  | refl {a : α} {s : Reading} : Reaches step a s a s
  | more {a b c : α} {s s₁ s' : Reading} :
    Reaches step a s b s₁ → step b s₁ = .ok (some c) s' → Reaches step a s c s'

/-- An expression is what has been read so far between two readings: an operand, and some of
    the operators after it. -/
def Expr.IsBetween (e : Expr) (n : Nat) (s s' : Reading) : Prop :=
  ∃ least lhs s₁, operand (Nested.upTo n) least s = .ok lhs s₁ ∧
    Reaches (extend? (Nested.upTo n) least) lhs s₁ e s'

/-- In the course of what is read between two readings, some items are read between two that
    are as told. -/
def Reading.Passes (R : Reading → Reading → Prop) (s s' : Reading) (cs : List Item) : Prop :=
  ∃ s₁ s₂ before behind, s.After before s₁ ∧ s₁.After cs s₂ ∧ s₂.After behind s' ∧ R s₁ s₂

/-- An expression was read from some items, in the course of what is read between two
    readings. -/
def Expr.IsReadFrom (s s' : Reading) (e : Expr) (cs : List Item) : Prop :=
  Reading.Passes (fun s₁ s₂ => ∃ n, e.IsBetween n s₁ s₂) s s' cs

/-- As for expressions. -/
def Decl.IsReadFrom (s s' : Reading) (d : Decl) (cs : List Item) : Prop :=
  Reading.Passes (fun s₁ s₂ => ∃ n, declaration (Nested.upTo n) s₁ = .ok d s₂) s s' cs

/-- What a node is was read from some items, unless it stands for something broken. -/
structure Node.IsReadFrom (s s' : Reading) (n : Node) (cs : List Item) : Prop where
  expr : ∀ e ∈ n.expr?, e.IsReadFrom s s' cs
  decl : ∀ d ∈ n.decl?, d.form.isWhole → d.IsReadFrom s s' cs

/-- Nodes that lie over items read between two readings, one after the other. -/
inductive Covers (s s' : Reading) : List Item → List Node → Prop where
  | nil : Covers s s' [] []
  | skip {i : Item} {cs : List Item} {ns : List Node} :
    Covers s s' cs ns → Covers s s' (i :: cs) ns
  | node {n : Node} {cs ds : List Item} {ns : List Node} :
    n.span.Over cs → n.IsReadFrom s s' cs → Covers s s' cs n.children →
    Covers s s' ds ns → Covers s s' (cs ++ ds) (n :: ns)

/-- What is read between two readings lies under the span between them. -/
theorem Reading.After.spanFrom_over {s s' : Reading} {cs : List Item} (h : s.After cs s') (ne : cs ≠ []) :
    (s'.spanFrom s.span.start).Over cs := by
  obtain ⟨i, ds, rfl⟩ := List.exists_cons_of_ne_nil ne
  obtain ⟨j, hj⟩ := Option.ne_none_iff_exists'.1 (mt List.getLast?_eq_none_iff.1 ne)
  have first : s.span = i.span := by rw [Reading.span, h.rest]; rfl
  rw [first]
  refine ⟨i, j, rfl, hj, rfl, fun le => ?_⟩
  rw [Reading.spanFrom, h.lastEnd, Item.endAfter_of_getLast? hj]
  exact Nat.max_eq_left le

theorem Reading.Passes.within {R : Reading → Reading → Prop} {s s₁ s₂ s' : Reading}
    {cs before behind : List Item} (h : Passes R s₁ s₂ cs) (first : s.After before s₁)
    (last : s₂.After behind s') : Passes R s s' cs :=
  have ⟨t₁, t₂, _, _, first', after, last', read⟩ := h
  ⟨t₁, t₂, _, _, first.trans first', after, last'.trans last, read⟩

namespace Covers

variable {s s₁ s₂ s' : Reading} {cs ds : List Item} {ns ms : List Node} {n : Node}

theorem append (h : Covers s s' cs ns) (h' : Covers s s' ds ms) :
    Covers s s' (cs ++ ds) (ns ++ ms) := by
  induction h with
  | nil => exact h'
  | skip _ ih => exact ih.skip
  | node across read inside _ _ ih =>
      rw [List.append_assoc]
      exact .node across read inside ih

theorem items : ∀ cs, Covers s s' cs []
  | [] => nil
  | _ :: cs => (items cs).skip

theorem single (across : n.span.Over cs) (read : n.IsReadFrom s s' cs)
    (h : Covers s s' cs n.children) : Covers s s' cs [n] := by
  have covers := node across read h nil
  rwa [List.append_nil] at covers

theorem leaf {place : Span} (across : place.Over cs) : Covers s s' cs [.leaf place] :=
  single across ⟨nofun, nofun⟩ (items cs)

/-- More may be read before, and more later. -/
theorem within {before behind : List Item} (h : Covers s₁ s₂ cs ns) (first : s.After before s₁)
    (last : s₂.After behind s') : Covers s s' cs ns := by
  induction h with
  | nil => exact nil
  | skip _ ih => exact ih.skip
  | node across read _ _ inside ih =>
      exact node across ⟨fun e he => (read.expr e he).within first last,
        fun d hd whole => (read.decl d hd whole).within first last⟩ inside ih

/-- Each node was read from some of the items. -/
theorem isReadFrom (h : Covers s s' cs ns) :
    ∀ n ∈ Node.allEach ns, ∃ ds, n.IsReadFrom s s' ds := by
  induction h with
  | nil => simp [Node.allEach]
  | skip _ ih => exact ih
  | node _ read _ _ ih ih' =>
      rw [Node.allEach, Node.all_eq]
      intro m hm
      rcases List.mem_append.1 hm with hm | hm
      · rcases List.mem_cons.1 hm with rfl | hm
        · exact ⟨_, read⟩
        · exact ih m hm
      · exact ih' m hm

end Covers

/-- What is told of the end of the items that were read. -/
inductive Ending where
  /-- Nothing. -/
  | any
  /-- There is one. -/
  | filled
  /-- There are none, or the last is no semicolon. -/
  | loose
  /-- The last is no semicolon. -/
  | firm

namespace Ending

def Holds (cs : List Item) : Ending → Prop
  | .any => True
  | .filled => cs ≠ []
  | .loose => ∀ i ∈ cs.getLast?, i.token ≠ .symbol .semicolon
  | .firm => ∃ i ∈ cs.getLast?, i.token ≠ .symbol .semicolon

/-- An ending that a last part gives to the whole. -/
class IsLast (e : Ending) : Prop where
  into (e) {cs ds : List Item} : e.Holds ds → e.Holds (cs ++ ds)

/-- An ending that only some items have. -/
class IsFilled (e : Ending) : Prop where
  ne_nil (e) {cs : List Item} : e.Holds cs → cs ≠ []

variable {cs ds : List Item}

theorem loosen (h : firm.Holds cs) : loose.Holds cs := by
  obtain ⟨i, hi, ne⟩ := h
  intro j hj
  rwa [← Option.some.inj ((Option.mem_def.1 hi).symm.trans hj)]

instance : IsLast any := ⟨fun _ => trivial⟩

instance : IsLast filled := ⟨fun h hn => h (List.append_eq_nil_iff.1 hn).2⟩

instance : IsLast firm where
  into := fun ⟨i, hi, ne⟩ => ⟨i, by rw [List.getLast?_append, hi]; rfl, ne⟩

instance : IsFilled filled := ⟨id⟩

instance : IsFilled firm := ⟨fun ⟨_, hi, _⟩ hn => by rw [hn] at hi; cases hi⟩

theorem seq (h : loose.Holds cs) (h' : loose.Holds ds) : loose.Holds (cs ++ ds) := by
  intro i hi
  rw [List.getLast?_append] at hi
  cases hd : ds.getLast? with
  | none =>
      rw [hd] at hi
      exact h i hi
  | some j =>
      rw [hd] at hi
      exact h' i (by rw [hd]; exact hi)

theorem before (h : firm.Holds cs) (h' : loose.Holds ds) : firm.Holds (cs ++ ds) := by
  obtain ⟨i, hi, ne⟩ := h
  cases hd : ds.getLast? with
  | none => exact ⟨i, by rw [List.getLast?_append, hd, hi]; rfl, ne⟩
  | some j => exact ⟨j, by rw [List.getLast?_append, hd]; rfl, h' j hd⟩

end Ending

/-- Nodes lie over what is read between two readings, and there is a placeholder among them
    just if something goes wrong. -/
def Laid (e : Ending) (s s' : Reading) (ns : List Node) : Prop :=
  ∃ cs, s.After cs s' ∧ e.Holds cs ∧ Covers s s' cs ns ∧ (Node.AllWhole ns ↔ s.Sound s')

/-- The nodes of whatever a step reads where the next token satisfies `P` lie over what it
    reads, but for the nodes `ns₀` that were read before. -/
def LaysIf {α : Type} [Noded α] (P : Option Token → Prop) (e : Ending) (ns₀ : List Node)
    (p : Parser α) : Prop :=
  ∀ s a s', P s.token? → p s = .ok a s' →
    isWhole a ∧ ∃ ns, nodes a = ns₀ ++ ns ∧ Laid e s s' ns

abbrev Lays {α : Type} [Noded α] (e : Ending) (ns₀ : List Node) (p : Parser α) : Prop :=
  LaysIf Anywhere e ns₀ p

/-- A token that is no broken text. -/
class Token.IsIntact (t : Token) : Prop where
  whole (t) : t.isBroken = false

instance (s : Symbol) : Token.IsIntact (.symbol s) := ⟨rfl⟩
instance (k : Keyword) : Token.IsIntact (.keyword k) := ⟨rfl⟩
instance (p : Primitive) : Token.IsIntact (.primitive p) := ⟨rfl⟩
instance (name : String) : Token.IsIntact (.ident name) := ⟨rfl⟩
instance (path : AnnexPath) : Token.IsIntact (.annex path) := ⟨rfl⟩
instance (value : Literal) : Token.IsIntact (.literal value) := ⟨rfl⟩

/-- A step that reads no token and finds nothing wrong. -/
class Grammar.Quiet {α : Type} (p : Parser α) : Prop where
  run (p) : ∀ s : Reading, ∃ a s', p s = .ok a s' ∧ s.After [] s' ∧ s.Sound s'

theorem Reading.Sound.refl (s : Reading) : s.Sound s := ⟨rfl, rfl⟩

theorem Reading.Sound.note {s : Reading} (rule : TieBreak) (place : Span) :
    s.Sound (s.note rule place) := by
  refine ⟨by rw [s.rest_note], ?_⟩
  rw [List.countP_eq_length_filter, s.errors_note, List.countP_eq_length_filter]

theorem Reading.Sound.noted {s : Reading} : s.Sound s.noted := by
  refine ⟨by rw [s.rest_noted], ?_⟩
  rw [List.countP_eq_length_filter, s.errors_noted, List.countP_eq_length_filter]

/-- A token that is no broken text is read. -/
theorem Reading.Sound.advance {s : Reading} (whole : s.token?.any Token.isBroken = false) :
    s.Sound s.advance := by
  cases hs : s.rest with
  | nil =>
      rw [Reading.advance, hs]
      exact refl s
  | cons i rest =>
      rw [Reading.token?, hs] at whole
      rw [Reading.advance_eq hs]
      exact ⟨by rw [hs, List.countP_cons_of_neg (by simpa using whole)], rfl⟩

namespace Grammar.Quiet

theorem of_look {α : Type} {p : Parser α} {f : Reading → α} (h : ∀ s, p s = .ok (f s) s) : Quiet p :=
  ⟨fun s => ⟨f s, s, h s, .refl s, .refl s⟩⟩

instance : Quiet Grammar.peek := of_look fun _ => rfl
instance (n : Nat) : Quiet (Grammar.peekAt n) := of_look fun _ => rfl
instance : Quiet Grammar.span := of_look fun _ => rfl
instance : Quiet (get : Parser Reading) := of_look fun _ => rfl
instance (t : Token) : Quiet (Grammar.sees t) := of_look fun _ => rfl
instance : Quiet Grammar.colonFollows := of_look fun _ => rfl
instance : Quiet Grammar.groupAhead := of_look fun _ => groupAhead_run
instance : Quiet Grammar.dependencyAhead := of_look fun _ => dependencyAhead_run
instance : Quiet Grammar.annexAhead := of_look annexAhead_run
instance : Quiet Grammar.cfun.identifierAhead := of_look identifierAhead_run
instance (rule : TieBreak) (place : Span) : Quiet (Grammar.note rule place) :=
  ⟨fun _ => ⟨(), _, rfl, .note rule place, .note rule place⟩⟩

end Grammar.Quiet

namespace Laid

variable {e e' : Ending} {s s₁ s' : Reading} {ns ms : List Node}

theorem weaken (h : Laid e s s' ns) (he : ∀ {cs}, e.Holds cs → e'.Holds cs) : Laid e' s s' ns :=
  have ⟨cs, after, ends, covers, sound⟩ := h
  ⟨cs, after, he ends, covers, sound⟩

theorem append {e₁ e₂ : Ending} (h : Laid e₁ s s₁ ns) (h' : Laid e₂ s₁ s' ms)
    (he : ∀ {cs ds}, e₁.Holds cs → e₂.Holds ds → e.Holds (cs ++ ds)) : Laid e s s' (ns ++ ms) := by
  obtain ⟨_, after, ends, covers, sound⟩ := h
  obtain ⟨_, after', ends', covers', sound'⟩ := h'
  refine ⟨_, after.trans after', he ends ends',
    (covers.within (.refl s) after').append (covers'.within after (.refl s')), ?_⟩
  rw [Node.allWhole_append, sound, sound', after.sound_iff after']

theorem refl (s : Reading) : Laid .loose s s [] :=
  ⟨[], .refl s, by simp [Ending.Holds], .nil, iff_of_true Node.allWhole_nil (.refl s)⟩

/-- A node from where a reading starts to where it ends. -/
theorem inside [filled : e.IsFilled] {n : Node} (h : Laid e s s' n.children)
    (place : n.span = s'.spanFrom s.span.start) (whole : n.isPlaceholder = false)
    (read : ∀ {cs}, s.After cs s' → n.IsReadFrom s s' cs) : Laid e s s' [n] := by
  obtain ⟨cs, after, ends, covers, sound⟩ := h
  refine ⟨cs, after, ends, .single ?_ (read after) covers, ?_⟩
  · rw [place]
    exact after.spanFrom_over (filled.ne_nil ends)
  · simpa [whole] using sound

/-- What is read after a look. -/
theorem quiet (after : s.After [] s₁) (sound : s.Sound s₁) (h : Laid e s₁ s' ns) :
    Laid e s s' ns :=
  have ⟨cs, after', ends, covers, accounts⟩ := h
  ⟨cs, after.trans after', ends, covers.within after (.refl s'),
    accounts.trans ((and_iff_right sound).symm.trans (after.sound_iff after').symm)⟩

end Laid

namespace LaysIf

variable {α β : Type} [Noded α] [Noded β] {P : Option Token → Prop} {e : Ending} {ns₀ : List Node}

theorem anywhere {p : Parser α} (h : Lays e ns₀ p) : LaysIf P e ns₀ p :=
  fun s a s' _ => h s a s' trivial

theorem weaken {e' : Ending} {p : Parser α} (h : LaysIf P e ns₀ p)
    (he : ∀ {cs}, e.Holds cs → e'.Holds cs) : LaysIf P e' ns₀ p := by
  intro s a s' hs run
  obtain ⟨whole, ns, hn, laid⟩ := h s a s' hs run
  exact ⟨whole, ns, hn, laid.weaken he⟩

theorem loosen {p : Parser α} (h : LaysIf P .firm ns₀ p) : LaysIf P .loose ns₀ p :=
  h.weaken Ending.loosen

theorem any {p : Parser α} (h : LaysIf P e ns₀ p) : LaysIf P .any ns₀ p :=
  h.weaken fun _ => trivial

theorem pure {a : α} (h : Noded.Made a ns₀) : LaysIf P .loose ns₀ (Pure.pure a) := by
  intro s b s' _ run
  obtain ⟨rfl, rfl⟩ := pure_ok.1 run
  exact ⟨h.whole, [], by simp [h.nodes], .refl s⟩

theorem unexpected {expected : String} : LaysIf P e ns₀ (Grammar.unexpected expected : Parser α) :=
  fun _ _ _ _ run => nomatch run

theorem invalid {message : String} {place : Span} :
    LaysIf P e ns₀ (Grammar.invalid message place : Parser α) :=
  fun _ _ _ _ run => nomatch run

theorem ite {c : Prop} [Decidable c] {p q : Parser α} (hp : LaysIf P e ns₀ p)
    (hq : LaysIf P e ns₀ q) : LaysIf P e ns₀ (if c then p else q) := by
  split <;> assumption

theorem bind' {e₁ e₂ : Ending} {p : Parser α} {f : α → Parser β} (hp : LaysIf P e₁ [] p)
    (hf : ∀ a, Lays e₂ (ns₀ ++ nodes a) (f a))
    (he : ∀ {cs ds}, e₁.Holds cs → e₂.Holds ds → e.Holds (cs ++ ds)) :
    LaysIf P e ns₀ (p >>= f) := by
  intro s b s' hs run
  obtain ⟨a, s₁, first, rest⟩ := bind_ok.1 run
  obtain ⟨-, ns, hn, laid⟩ := hp s a s₁ hs first
  obtain ⟨whole, ms, hm, laid'⟩ := hf a s₁ b s' trivial rest
  obtain rfl : nodes a = ns := hn
  exact ⟨whole, nodes a ++ ms, by rw [hm, List.append_assoc], laid.append laid' he⟩

/-- A step, and what follows it and ends it all. -/
theorem bind [last : e.IsLast] {e₁ : Ending} {p : Parser α} {f : α → Parser β}
    (hp : LaysIf P e₁ [] p) (hf : ∀ a, Lays e (ns₀ ++ nodes a) (f a)) : LaysIf P e ns₀ (p >>= f) :=
  bind' hp hf fun _ h => last.into h

/-- A step, and what may follow it. -/
theorem before {p : Parser α} {f : α → Parser β} (hp : LaysIf P .firm [] p)
    (hf : ∀ a, Lays .loose (ns₀ ++ nodes a) (f a)) : LaysIf P .firm ns₀ (p >>= f) :=
  bind' hp hf Ending.before

/-- A step that may read something, and what may follow it. -/
theorem seq {p : Parser α} {f : α → Parser β} (hp : LaysIf P .loose [] p)
    (hf : ∀ a, Lays .loose (ns₀ ++ nodes a) (f a)) : LaysIf P .loose ns₀ (p >>= f) :=
  bind' hp hf Ending.seq

/-- A step without nodes, and what follows it. -/
theorem next [last : e.IsLast] {e₁ : Ending} {p : Parser Unit} {f : Unit → Parser β}
    (hp : LaysIf P e₁ [] p) (hf : Lays e ns₀ (f ())) : LaysIf P e ns₀ (p >>= f) :=
  bind hp fun _ => by simpa [nodes] using hf

/-- The last step, and what is made of it. -/
theorem last {p : Parser α} {f : α → β} (hp : LaysIf P e [] p)
    (hf : ∀ a, Noded.Made (f a) (ns₀ ++ nodes a)) :
    LaysIf P e ns₀ (p >>= fun a => Pure.pure (f a)) := by
  intro s b s' hs run
  obtain ⟨a, s₁, first, rest⟩ := bind_ok.1 run
  obtain ⟨rfl, rfl⟩ := pure_ok.1 rest
  obtain ⟨-, ns, hn, laid⟩ := hp s a s₁ hs first
  exact ⟨(hf a).whole, ns, by rw [(hf a).nodes, hn]; rfl, laid⟩

theorem map {p : Parser α} {f : α → β} (hp : LaysIf P e [] p)
    (hf : ∀ a, Noded.Made (f a) (ns₀ ++ nodes a)) : LaysIf P e ns₀ (f <$> p) := by
  rw [map_eq_bind]
  exact last hp hf

theorem some_map {p : Parser α} (hp : LaysIf P e [] p) : LaysIf P e [] (some <$> p) :=
  hp.map fun _ => ⟨rfl, rfl⟩

/-- A look, and what follows it. -/
theorem look {γ : Type} {p : Parser γ} [quiet : Quiet p] {f : γ → Parser β}
    (hf : ∀ a, Lays e ns₀ (f a)) : LaysIf P e ns₀ (p >>= f) := by
  intro s b s' _ run
  obtain ⟨a, s₁, first, after, sound⟩ := quiet.run s
  rw [bind_of_ok first] at run
  obtain ⟨whole, ns, hn, laid⟩ := hf a s₁ b s' trivial run
  exact ⟨whole, ns, hn, laid.quiet after sound⟩

theorem peek {f : Option Token → Parser β} (hf : ∀ t, P t → LaysIf (· = t) e ns₀ (f t)) :
    LaysIf P e ns₀ (Grammar.peek >>= f) :=
  fun s b s' hs run => hf s.token? hs s b s' rfl run

theorem sees {t : Token} {f : Bool → Parser β} (yes : LaysIf (· = some t) e ns₀ (f true))
    (no : LaysIf P e ns₀ (f false)) : LaysIf P e ns₀ (Grammar.sees t >>= f) := by
  intro s b s' hs run
  rw [sees_bind] at run
  by_cases h : s.token? = some t
  · rw [show (s.token? == some t) = true by simpa using h] at run
    exact yes s b s' h run
  · rw [show (s.token? == some t) = false by simpa using h] at run
    exact no s b s' hs run

theorem span {f : Span → Parser β} (hf : ∀ place, LaysIf P e ns₀ (f place)) :
    LaysIf P e ns₀ (Grammar.span >>= f) :=
  fun s b s' hs run => hf s.span s b s' hs run

theorem note {rule : TieBreak} {place : Span} {f : Unit → Parser β} (hf : LaysIf P e ns₀ (f ())) :
    LaysIf P e ns₀ (Grammar.note rule place >>= f) := by
  intro s b s' hs run
  rw [note_bind] at run
  obtain ⟨whole, ns, hn, laid⟩ := hf _ b s' (by rwa [Reading.token?, s.rest_note]) run
  exact ⟨whole, ns, hn, laid.quiet (.note rule place) (.note rule place)⟩

theorem advance (hP : ∀ t, P t → t.any Token.isBroken = false) :
    LaysIf P .any [] Grammar.advance := by
  intro s a s' ht run
  obtain rfl : s.advance = s' := (EStateM.Result.ok.inj run).2
  have sound := Reading.Sound.advance (hP _ ht)
  refine ⟨rfl, [], rfl, ?_⟩
  cases hs : s.rest with
  | nil =>
      rw [Reading.advance, hs]
      exact (Laid.refl s).weaken fun _ => trivial
  | cons i rest =>
      exact ⟨[i], .advance hs, trivial, .items _, iff_of_true Node.allWhole_nil sound⟩

theorem advance_at {t : Token} [intact : t.IsIntact] (ht : t ≠ .symbol .semicolon) :
    LaysIf (· = some t) .firm [] Grammar.advance := by
  intro s a s' hs run
  obtain rfl : s.advance = s' := (EStateM.Result.ok.inj run).2
  have sound := Reading.Sound.advance (s := s) (by rw [hs]; exact intact.whole)
  obtain ⟨i, rest, hrest, rfl⟩ := Reading.token?_eq_some.1 hs
  exact ⟨rfl, [], rfl, [i], .advance hrest, ⟨i, rfl, ht⟩, .items _,
    iff_of_true Node.allWhole_nil sound⟩

theorem expect_any {t : Token} [intact : t.IsIntact] :
    LaysIf P .any [] (Grammar.expect t) := by
  intro s a s' _ run
  obtain ⟨hs, rfl⟩ := expect_ok.1 run
  exact advance (P := (· = some t)) (by rintro _ rfl; exact intact.whole) s () _ hs rfl

theorem expect_filled {t : Token} [intact : t.IsIntact] :
    LaysIf P .filled [] (Grammar.expect t) := by
  intro s a s' _ run
  obtain ⟨hs, rfl⟩ := expect_ok.1 run
  have sound := Reading.Sound.advance (s := s) (by rw [hs]; exact intact.whole)
  obtain ⟨i, rest, hrest, -⟩ := Reading.token?_eq_some.1 hs
  exact ⟨rfl, [], rfl, [i], .advance hrest, by simp [Ending.Holds], .items _,
    iff_of_true Node.allWhole_nil sound⟩

theorem expect {t : Token} [intact : t.IsIntact] (ht : t ≠ .symbol .semicolon) :
    LaysIf P .firm [] (Grammar.expect t) := by
  intro s a s' _ run
  obtain ⟨hs, rfl⟩ := expect_ok.1 run
  exact advance_at ht s () _ hs rfl

theorem accept_any {t : Token} [intact : t.IsIntact] :
    LaysIf P .any [] (Grammar.accept t) := by
  intro s a s' _ run
  rcases accept_ok.1 run with ⟨-, hs, rfl⟩ | ⟨-, -, rfl⟩
  · obtain ⟨-, laid⟩ := advance (P := (· = some t)) (by rintro _ rfl; exact intact.whole) s () _ hs rfl
    exact ⟨rfl, laid⟩
  · exact ⟨rfl, [], rfl, (Laid.refl _).weaken fun _ => trivial⟩

/-- A span taken of the next token, which is then read. -/
theorem leaf {f : Span → Parser β}
    (hf : ∀ place, Lays .loose (ns₀ ++ [.leaf place]) (f place)) {t : Token} [intact : t.IsIntact]
    (ht : t ≠ .symbol .semicolon) :
    LaysIf (· = some t) .firm ns₀ (Grammar.span >>= fun place => Grammar.advance >>= fun _ => f place) := by
  intro s b s' hs run
  rw [span_bind, advance_bind] at run
  obtain ⟨whole', ms, hm, laid⟩ := hf s.span s.advance b s' trivial run
  have sound := Reading.Sound.advance (s := s) (by rw [hs]; exact intact.whole)
  obtain ⟨i, rest, hrest, rfl⟩ := Reading.token?_eq_some.1 hs
  have place : s.span = i.span := by rw [Reading.span, hrest]
  refine ⟨whole', .leaf s.span :: ms, by rw [hm, List.append_assoc]; rfl, ?_⟩
  have across : s.span.Over [i] := ⟨i, i, rfl, rfl, by rw [place], fun _ => by rw [place]⟩
  have first : Laid .firm s s.advance [.leaf s.span] :=
    ⟨[i], .advance hrest, ⟨i, rfl, ht⟩, .leaf across, iff_of_true (Node.allWhole_leaf _) sound⟩
  exact first.append laid Ending.before

/-- What is read together with its span is a node. -/
theorem node [e.IsFilled] {p : Parser α} {f : α × Span → β} (hp : LaysIf P e [] p)
    (hf : ∀ a place, Noded.Made (f (a, place)) [⟨place, none, nodes a⟩]) :
    LaysIf P e [] (Grammar.located p >>= fun r => Pure.pure (f r)) := by
  intro s b s' hs run
  obtain ⟨⟨a, place⟩, s₁, first, rest⟩ := bind_ok.1 run
  obtain ⟨rfl, rfl⟩ := pure_ok.1 rest
  obtain ⟨run, rfl⟩ := located_ok.1 first
  obtain ⟨-, ns, hn, laid⟩ := hp s a s₁ hs run
  obtain rfl : nodes a = ns := hn
  exact ⟨(hf a _).whole, _, (hf a _).nodes, Laid.inside laid rfl rfl fun _ => ⟨nofun, nofun⟩⟩

theorem after {marker : Token} [intact : marker.IsIntact] {p : Parser α} (hp : Lays .firm [] p) :
    LaysIf P .loose [] (Grammar.after marker p) := by
  intro s r s' _ run
  rcases after_ok.1 run with ⟨hs, a, rfl, inner⟩ | ⟨-, rfl, rfl⟩
  · obtain ⟨-, ns, hn, laid⟩ := hp s.advance a s' trivial inner
    obtain ⟨-, ms, hm, laid'⟩ := advance (P := (· = some marker)) (by rintro _ rfl; exact intact.whole) s ()
      s.advance hs rfl
    obtain rfl : [] = ms := hm
    refine ⟨rfl, ns, hn, ?_⟩
    exact (laid'.append laid fun _ h => Ending.IsLast.into .firm h).weaken Ending.loosen
  · exact ⟨rfl, [], rfl, .refl s'⟩

theorem after_any {marker : Token} [intact : marker.IsIntact] {p : Parser α} (hp : Lays .any [] p) :
    LaysIf P .any [] (Grammar.after marker p) :=
  bind accept_any fun _ =>
    ite (map hp fun _ => ⟨rfl, rfl⟩) (any (pure ⟨rfl, rfl⟩))

/-- A loop over parts that each end in the same way. -/
theorem manyUpTo {step : Parser (Option α)} (h : Lays e [] step)
    (stop : ∀ {cs}, Ending.loose.Holds cs → e.Holds cs)
    (more : ∀ {cs ds}, e.Holds cs → e.Holds ds → e.Holds (cs ++ ds)) :
    ∀ n, Lays e [] (Grammar.manyUpTo step n) := by
  intro n
  induction n with
  | zero => exact (pure ⟨rfl, rfl⟩).weaken stop
  | succ n ih =>
      refine bind' h (fun a => ?_) more
      cases a with
      | none => exact (pure ⟨rfl, rfl⟩).weaken stop
      | some a => exact last ih fun _ => ⟨rfl, by simp⟩

theorem many {step : Parser (Option α)} (h : Lays .loose [] step) :
    LaysIf P .loose [] (Grammar.many step) :=
  anywhere fun s as s' hs run => manyUpTo h id Ending.seq _ s as s' hs run

theorem many_any {step : Parser (Option α)} (h : Lays .any [] step) :
    LaysIf P .any [] (Grammar.many step) :=
  anywhere fun s as s' hs run =>
    manyUpTo h (fun _ => trivial) (fun _ _ => trivial) _ s as s' hs run

theorem many1 {first : Parser α} {step : Parser (Option α)} (h : LaysIf P .firm [] first)
    (hs : Lays .loose [] step) : LaysIf P .firm [] (Grammar.many1 first step) :=
  before h fun _ => last (many hs) fun _ => ⟨rfl, by simp⟩

theorem commaListUpTo {close : Token} {element : Parser α} (h : Lays .firm [] element) :
    ∀ n, Lays .any [] (Grammar.commaListUpTo close element n)
  | 0 => any (pure ⟨rfl, rfl⟩)
  | n + 1 => look fun _ => ite (any (pure ⟨rfl, rfl⟩)) <| bind h fun _ => bind accept_any fun _ =>
      ite (last (commaListUpTo h n) fun _ => ⟨rfl, by simp [nodes]⟩) (any (pure ⟨rfl, by simp [nodes]⟩))

theorem commaList {close : Token} {element : Parser α} (h : Lays .firm [] element) :
    LaysIf P .any [] (Grammar.commaList close element) :=
  anywhere fun s as s' hs run => commaListUpTo h _ s as s' hs run

end LaysIf

end Mim
