import Mim.Proofs.Loops
import Mim.Proofs.Progress
import Mim.Proofs.Spelling

/-! # What is read is what is written

A rule that succeeds has read a spelling of its result. The tokens of the layout of the
result are a spelling of it too, and from either of them the rule reads the result
again, with whatever may follow.
-/

namespace Mim

open Grammar Token

/-- The spelling that is read again. -/
inductive Mode where
  /-- The tokens that were read, in the same place. -/
  | exact
  /-- The tokens of the layout, anywhere. -/
  | canonical

/-- The tokens with the doc comments in front of each, as the items of a text have them. -/
def Token.bareAfter (pending : List String) : List Token → List (Token × Option String)
  | [] => []
  | .doc line :: ts => bareAfter (pending ++ [line]) ts
  | t :: ts => (t, Item.joinDocs pending) :: bareAfter [] ts

/-- The tokens that are no doc comments. -/
def Token.undoc (ts : List Token) : List Token := ts.filter fun t => !t.isDoc

/-- A layout has the same tokens without its optional punctuation, if no bar that is left
    out keeps an arm apart from `with`, and if no doc comment ends in an empty line. -/
structure Regular (rest : List Item) : Prop where
  bars {t : Token} {ts : List Token} :
    .keyword .with_ :: .symbol .pipe :: t :: ts <:+ rest.map Item.token →
    t ≠ .symbol .leftBrace ∧ t.startsDeclaration = false
  docs : ∀ i ∈ rest, i.token.startsDeclaration → ∀ d ∈ i.doc,
    Item.joinDocs ((docLines d.toList).map String.ofList) = some d

namespace Mode

/-- What becomes of the spans. -/
def move : Mode → Change
  | .exact => .id
  | .canonical => .placeless

/-- Doc comments are kept. -/
theorem doc_move (m : Mode) (d : Option String) : m.move.doc d = d := by
  cases m <;> rfl

/-- The two readings end at the same place, if places count. -/
def Ends (m : Mode) (a b : Nat) : Prop := m.move (Span.point b) = m.move (Span.point a)

/-- The two values are the same, if places do not count apart from them. -/
def Same {α : Type} [Spanned α] (m : Mode) (a b : α) : Prop := respan m.move b = respan m.move a

/-- Items that spell what was read, of which the layout has the given tokens. -/
def Copies (m : Mode) (cs : List Item) (l : List Token) (cs' : List Item) : Prop :=
  match m with
  | .exact => cs' = cs
  | .canonical => cs'.map Item.bare = bareAfter [] l

/-- What the mode asks of the tokens that were read. -/
def Admits (m : Mode) (rest : List Item) : Prop :=
  match m with
  | .exact => True
  | .canonical => Regular rest

end Mode

/-- The tokens still to be read. -/
abbrev Reading.tokens (s : Reading) : List Token := s.rest.map Item.token

/-- What a clean run of a rule reads: no broken text, and nothing wrong is recorded. -/
structure Clean (s s' : Reading) : Prop where
  tokens : ∀ i ∈ s.rest, ∀ reason, i.token ≠ .error reason
  recorded : ∀ d ∈ s'.recorded, d.isError = false

/-- What was read, and the tokens of its layout. -/
structure Written (cs : List Item) (l : List Token) : Prop where
  respells : Respells (cs.map Item.token) (undoc l)
  settled (ms : List Token) : bareAfter [] (l ++ ms) = bareAfter [] l ++ bareAfter [] ms
  docs {line : String} : .doc line ∈ l →
    ∃ i ∈ cs, ∃ d ∈ i.doc, line.toList ∈ docLines d.toList

/-- The result is read again, if what follows satisfies `F`. -/
def Rereads {α : Type} [Spanned α] (m : Mode) (F : List Token → List Token → Prop) (q : Parser α)
    (s s' : Reading) (a : α) (cs : List Item) (l : List Token) : Prop :=
  ∀ {u : Reading} {cs' us : List Item}, m.Copies cs l cs' → u.rest = cs' ++ us →
    F s'.tokens (us.map Item.token) → m.Ends s.lastEnd u.lastEnd →
    ∃ a' u', q u = .ok a' u' ∧ m.Same a a' ∧ u'.rest = us ∧ m.Ends s'.lastEnd u'.lastEnd ∧
      u'.recorded.filter Diagnostic.isError = u.recorded.filter Diagnostic.isError

/-- What was read from `s` on is written as the tokens `l`, after the tokens `l₀`, and `q`
    reads it again. -/
def SpelledIf {α : Type} [Spanned α] (F : List Token → List Token → Prop) (m : Mode) (k : Grade)
    (l₀ l : List Token) (s : Reading) (a : α) (s' : Reading) (q : Parser α) : Prop :=
  ∃ cs, s.rest = cs ++ s'.rest ∧ s.recorded <:+ s'.recorded ∧
    (Clean s s' → ∃ l₁, l = l₀ ++ l₁ ∧ Written cs l₁ ∧
      k.Holds (cs.map Item.token) (undoc l₁) ∧
      (m.Admits s.rest → Rereads m F q s s' a cs l₁))

/-- Whatever `p` reads where the next token satisfies `P` is written as `L` says, and `q`
    reads it again. -/
def SpellsIf {α : Type} [Spanned α] (F : List Token → List Token → Prop) (m : Mode)
    (P : Option Token → Prop) (k : Grade) (l₀ : List Token) (p q : Parser α)
    (L : α → List Token) : Prop :=
  ∀ s a s', P s.token? → p s = .ok a s' → SpelledIf F m k l₀ (L a) s a s' q

abbrev Spelled {α : Type} [Spanned α] (m : Mode) (k : Grade) (l₀ l : List Token) (s : Reading)
    (a : α) (s' : Reading) (q : Parser α) : Prop :=
  SpelledIf Follow m k l₀ l s a s' q

abbrev Spells {α : Type} [Spanned α] (m : Mode) (P : Option Token → Prop) (k : Grade)
    (l₀ : List Token) (p q : Parser α) (L : α → List Token) : Prop :=
  SpellsIf Follow m P k l₀ p q L

theorem Reading.head?_tokens (s : Reading) : s.tokens.head? = s.token? := List.head?_map ..

theorem Reading.getElem?_tokens (s : Reading) (n : Nat) : s.tokens[n]? = s.tokenAt? n :=
  List.getElem?_map ..

theorem Token.head?_append {ts : List Token} (ne : ts ≠ []) (us : List Token) :
    (ts ++ us).head? = ts.head? := by
  cases ts with
  | nil => exact absurd rfl ne
  | cons t ts => rfl

theorem Token.undoc_append (ts us : List Token) : undoc (ts ++ us) = undoc ts ++ undoc us :=
  List.filter_append ..

theorem Token.undoc_cons {t : Token} (h : t.isDoc = false) (ts : List Token) :
    undoc (t :: ts) = t :: undoc ts := by
  simp [undoc, h]

theorem Token.bareAfter_cons {t : Token} (h : t.isDoc = false) (pending : List String)
    (ts : List Token) :
    bareAfter pending (t :: ts) = (t, Item.joinDocs pending) :: bareAfter [] ts := by
  cases t <;> first | rfl | cases h

theorem Token.fst_bareAfter (ts : List Token) :
    ∀ pending, (bareAfter pending ts).map Prod.fst = undoc ts := by
  induction ts with
  | nil => exact fun _ => rfl
  | cons t ts ih =>
      intro pending
      cases h : t.isDoc with
      | false => rw [bareAfter_cons h, undoc_cons h, List.map_cons, ih]
      | true =>
          cases t with
          | doc line => exact ih _
          | _ => cases h

namespace Written

theorem nil : Written [] [] := ⟨Respells.nil, fun _ => rfl, fun h => nomatch h⟩

theorem append {cs cs' : List Item} {l l' : List Token} (h : Written cs l) (h' : Written cs' l') :
    Written (cs ++ cs') (l ++ l') where
  respells := by
    rw [List.map_append, undoc_append]
    exact h.respells.append h'.respells
  settled ms := by
    rw [List.append_assoc, h.settled, h.settled, h'.settled, List.append_assoc]
  docs hd := by
    rcases List.mem_append.1 hd with hd | hd
    · obtain ⟨i, hi, found⟩ := h.docs hd
      exact ⟨i, List.mem_append_left _ hi, found⟩
    · obtain ⟨i, hi, found⟩ := h'.docs hd
      exact ⟨i, List.mem_append_right _ hi, found⟩

/-- A token in front of what is written. -/
theorem cons {i : Item} {cs : List Item} {l : List Token} (h : Written cs l)
    (hd : i.token.isDoc = false)
    (hr : Respells (i.token :: cs.map Item.token) (i.token :: undoc l)) :
    Written (i :: cs) (i.token :: l) where
  respells := by rwa [List.map_cons, undoc_cons hd]
  settled ms := by
    rw [List.cons_append, bareAfter_cons hd, bareAfter_cons hd, h.settled, List.cons_append]
  docs {line} hl := by
    rcases List.mem_cons.1 hl with hl | hl
    · rw [← hl] at hd
      cases hd
    · obtain ⟨j, hj, found⟩ := h.docs hl
      exact ⟨j, List.mem_cons_of_mem _ hj, found⟩

end Written

namespace Mode

variable {m : Mode}

theorem Same.refl {α : Type} [Spanned α] (a : α) : m.Same a a := rfl

theorem Admits.suffix {rest rest' : List Item} (h : m.Admits rest) (hs : rest' <:+ rest) :
    m.Admits rest' := by
  cases m with
  | exact => trivial
  | canonical =>
      exact ⟨fun hb => h.bars (hb.trans (hs.map Item.token)), fun i hi => h.docs i (hs.subset hi)⟩

theorem Copies.nil {cs' : List Item} (h : m.Copies [] [] cs') : cs' = [] := by
  cases m with
  | exact => exact h
  | canonical => exact List.map_eq_nil_iff.1 h

theorem Copies.append {cs₁ cs₂ cs' : List Item} {l₁ l₂ : List Token}
    (h : m.Copies (cs₁ ++ cs₂) (l₁ ++ l₂) cs') (w : Written cs₁ l₁) :
    ∃ cs₁' cs₂', cs' = cs₁' ++ cs₂' ∧ m.Copies cs₁ l₁ cs₁' ∧ m.Copies cs₂ l₂ cs₂' := by
  cases m with
  | exact => exact ⟨cs₁, cs₂, h, rfl, rfl⟩
  | canonical =>
      change cs'.map Item.bare = _ at h
      rw [w.settled] at h
      obtain ⟨cs₁', cs₂', rfl, h₁, h₂⟩ := List.map_eq_append_iff.1 h
      exact ⟨cs₁', cs₂', rfl, h₁, h₂⟩

theorem Copies.cons {i : Item} {cs cs' : List Item} {l : List Token}
    (h : m.Copies (i :: cs) (i.token :: l) cs') (hd : i.token.isDoc = false) :
    ∃ i' cs₁', cs' = i' :: cs₁' ∧ i'.token = i.token ∧ m.Same i.span i'.span ∧
      m.Ends i.span.stop i'.span.stop ∧ m.Copies cs l cs₁' := by
  cases m with
  | exact => exact ⟨i, cs, h, rfl, rfl, rfl, rfl⟩
  | canonical =>
      change cs'.map Item.bare = _ at h
      rw [bareAfter_cons hd] at h
      obtain ⟨i', cs₁', rfl, hi, hcs⟩ := List.map_eq_cons_iff.1 h
      exact ⟨i', cs₁', rfl, congrArg Prod.fst hi, rfl, rfl, hcs⟩

/-- The tokens of a copy are those that were read, or those of the layout. -/
theorem Copies.tokens {cs cs' : List Item} {l : List Token} (h : m.Copies cs l cs') :
    cs'.map Item.token = cs.map Item.token ∨ cs'.map Item.token = undoc l := by
  cases m with
  | exact => exact .inl (congrArg _ h)
  | canonical =>
      refine .inr ?_
      rw [← fst_bareAfter l [], ← show cs'.map Item.bare = bareAfter [] l from h, List.map_map]
      rfl

theorem Copies.holds {cs cs' : List Item} {l : List Token} {k : Grade} (h : m.Copies cs l cs')
    (hk : k.Holds (cs.map Item.token) (undoc l)) :
    k.Holds (cs.map Item.token) (cs'.map Item.token) := by
  rcases h.tokens with h | h
  · rw [h]
    exact hk.self
  · rwa [h]

/-- What was read and its copy begin at the same place. -/
theorem Copies.span {s u : Reading} {cs cs' rest us : List Item} {l : List Token}
    (h : m.Copies cs l cs') (ne : cs ≠ []) (hs : s.rest = cs ++ rest) (hu : u.rest = cs' ++ us) :
    m.Same s.span u.span := by
  cases m with
  | canonical => rfl
  | exact =>
      obtain rfl : cs' = cs := h
      cases cs' with
      | nil => exact absurd rfl ne
      | cons i cs => simp only [Same, Reading.span, hs, hu, List.cons_append]

theorem Same.spanFrom {s' u' : Reading} {place place' : Span} (h : m.Same place place')
    (ends : m.Ends s'.lastEnd u'.lastEnd) :
    m.Same (s'.spanFrom place.start) (u'.spanFrom place'.start) := by
  cases m with
  | canonical => rfl
  | exact =>
      have start : place' = place := h
      have stop : u'.lastEnd = s'.lastEnd := congrArg Span.start ends
      simp only [Same, Reading.spanFrom, start, stop]

end Mode

/-- A clean run in two parts. -/
theorem Clean.split {s s₁ s' : Reading} {cs : List Item} (h : Clean s s')
    (rest : s.rest = cs ++ s₁.rest) (recorded : s₁.recorded <:+ s'.recorded) :
    Clean s s₁ ∧ Clean s₁ s' :=
  ⟨⟨h.tokens, fun d hd => h.recorded d (recorded.subset hd)⟩,
    ⟨fun i hi => h.tokens i (by rw [rest]; exact List.mem_append_right _ hi), h.recorded⟩⟩

namespace SpelledIf

open Mode

variable {α β : Type} [Spanned α] [Spanned β] {F F₁ : List Token → List Token → Prop} {m : Mode}
  {k k₁ k₂ : Grade} {l₀ l l₁ : List Token} {s s₁ s' : Reading} {q q' : Parser α} {a a' : α} {b : β}

/-- What is read again does not depend on how it was told. -/
theorem rereads {cs : List Item} (h : SpelledIf F m k l₀ l s a s' q) (clean : Clean s s')
    (admits : m.Admits s.rest) (rest : s.rest = cs ++ s'.rest) (hl : l = l₀ ++ l₁) :
    Rereads m F q s s' a cs l₁ := by
  obtain ⟨cs', rest', -, told⟩ := h
  obtain ⟨l₂, hl₂, -, -, reads⟩ := told clean
  obtain rfl : cs = cs' := List.append_cancel_right (rest.symm.trans rest')
  obtain rfl : l₁ = l₂ := List.append_cancel_left (hl.symm.trans hl₂)
  exact reads admits

/-- Told of fewer ways to go on, with a grade that says less. -/
theorem weaken (h : SpelledIf F₁ m k₁ l₀ l s a s' q) (hF : ∀ {ts us}, F ts us → F₁ ts us)
    (hk : ∀ {xs ys}, k₁.Holds xs ys → k.Holds xs ys) : SpelledIf F m k l₀ l s a s' q := by
  obtain ⟨cs, rest, recorded, told⟩ := h
  refine ⟨cs, rest, recorded, fun clean => ?_⟩
  obtain ⟨l₁, hl, w, g, reads⟩ := told clean
  exact ⟨l₁, hl, w, hk g, fun admits _ _ _ copies hu follow => reads admits copies hu (hF follow)⟩

/-- Whatever was written before. -/
theorem shift (h : SpelledIf F m k [] l s a s' q) : SpelledIf F m k l₀ (l₀ ++ l) s a s' q := by
  obtain ⟨cs, rest, recorded, told⟩ := h
  refine ⟨cs, rest, recorded, fun clean => ?_⟩
  obtain ⟨l₁, hl, w, g, reads⟩ := told clean
  exact ⟨l₁, congrArg (l₀ ++ ·) hl, w, g, reads⟩

/-- A piece that is not empty. -/
theorem phrase (h : SpelledIf F m .piece l₀ l s a s' q) (ne : s.rest.length ≠ s'.rest.length) :
    SpelledIf F m .phrase l₀ l s a s' q := by
  obtain ⟨cs, rest, recorded, told⟩ := h
  refine ⟨cs, rest, recorded, fun clean => ?_⟩
  obtain ⟨l₁, hl, w, g, reads⟩ := told clean
  have hne : cs.map Item.token ≠ [] := fun e => ne (by simp [rest, List.map_eq_nil_iff.1 e])
  exact ⟨l₁, hl, w, ⟨g.1, hne, g.2 hne⟩, reads⟩

/-- Nothing is read, and nothing written. -/
theorem nothing (hs : s'.rest = s.rest) (ends : s'.lastEnd = s.lastEnd)
    (recorded : s.recorded <:+ s'.recorded)
    (hq : ∀ {u : Reading}, F s.tokens u.tokens → ∃ a' u', q u = .ok a' u' ∧ m.Same a a' ∧
      u'.rest = u.rest ∧ u'.lastEnd = u.lastEnd ∧
      u'.recorded.filter Diagnostic.isError = u.recorded.filter Diagnostic.isError) :
    SpelledIf F m .piece l l s a s' q := by
  refine ⟨[], hs.symm, recorded, fun _ => ⟨[], by simp, Written.nil, Grade.nil, fun _ => ?_⟩⟩
  intro u cs' us copies hu follow hends
  obtain rfl := copies.nil
  obtain rfl : u.rest = us := hu
  rw [Reading.tokens, hs] at follow
  obtain ⟨a', u', run, same, rest, ends', errors⟩ := hq follow
  exact ⟨a', u', run, same, rest, by rwa [ends, ends'], errors⟩

theorem pure (h : m.Same a a') : SpelledIf F m .piece l l s a s (Pure.pure a') :=
  nothing rfl rfl (List.suffix_refl _) fun _ => ⟨a', _, rfl, h, rfl, rfl, rfl⟩

/-- What was read in two parts. -/
theorem and_then {f : α → Parser β} (h : SpelledIf F₁ m k₁ l₀ l₁ s a s₁ q)
    (hf : ∀ a', m.Same a a' → SpelledIf F m k₂ l₁ l s₁ b s' (f a'))
    (follow : ∀ {xs ys ts us}, k₂.Holds xs ys → F ts us → F₁ (xs ++ ts) (ys ++ us))
    (grade : ∀ {xs ys xs' ys'}, k₁.Holds xs ys → k₂.Holds xs' ys' →
      k.Holds (xs ++ xs') (ys ++ ys')) : SpelledIf F m k l₀ l s b s' (q >>= f) := by
  obtain ⟨cs₁, rest₁, rec₁, told₁⟩ := h
  obtain ⟨cs₂, rest₂, rec₂, told₂⟩ := hf a (Same.refl a)
  refine ⟨cs₁ ++ cs₂, by rw [rest₁, rest₂, List.append_assoc], rec₁.trans rec₂, fun clean => ?_⟩
  obtain ⟨clean₁, clean₂⟩ := clean.split rest₁ rec₂
  obtain ⟨l₂, rfl, w₁, g₁, reads₁⟩ := told₁ clean₁
  obtain ⟨l₃, hl₃, w₂, g₂, -⟩ := told₂ clean₂
  refine ⟨l₂ ++ l₃, by rw [hl₃, List.append_assoc], w₁.append w₂, ?_, fun admits => ?_⟩
  · rw [List.map_append, undoc_append]
    exact grade g₁ g₂
  intro u cs' us copies hu hus ends
  obtain ⟨cs₁', cs₂', rfl, copies₁, copies₂⟩ := copies.append w₁
  have boundary : F₁ s₁.tokens ((cs₂' ++ us).map Item.token) := by
    rw [Reading.tokens, rest₂, List.map_append, List.map_append]
    exact follow (copies₂.holds g₂) hus
  obtain ⟨a', u₁, run₁, same, hu₁, ends₁, errors₁⟩ :=
    reads₁ admits copies₁ (by rw [hu, List.append_assoc]) boundary ends
  have admits₁ : m.Admits s₁.rest := admits.suffix ⟨cs₁, rest₁.symm⟩
  obtain ⟨b', u', run₂, same', hu', ends', errors'⟩ :=
    (hf a' same).rereads clean₂ admits₁ rest₂ hl₃ copies₂ hu₁ hus ends₁
  exact ⟨b', u', by rw [bind_of_ok run₁, run₂], same', hu', ends', errors'.trans errors₁⟩

/-- A phrase and a piece after it. -/
theorem bind {f : α → Parser β} (h : Spelled m .phrase l₀ l₁ s a s₁ q)
    (hf : ∀ a', m.Same a a' → Spelled m .piece l₁ l s₁ b s' (f a')) :
    Spelled m .phrase l₀ l s b s' (q >>= f) :=
  h.and_then hf (Grade.Holds.follow Looks.follow) Grade.phrase_append

/-- A piece and what stands after it. -/
theorem append [k.IsPiece] {f : α → Parser β} (hF : ∀ {ts us}, Looks ts us → F ts us)
    (h : SpelledIf F m .piece l₀ l₁ s a s₁ q)
    (hf : ∀ a', m.Same a a' → SpelledIf F m k l₁ l s₁ b s' (f a')) :
    SpelledIf F m k l₀ l s b s' (q >>= f) :=
  h.and_then hf (Grade.Holds.follow hF) Grade.piece_append

/-- A token, and what follows it. -/
theorem token {t : Token} {f f' : Parser β} (lead : Grade.Leads t k₁ k) (ht : s.token? = some t)
    (hq : ∀ {u : Reading}, u.token? = some t → f' u = f u.advance)
    (hf : SpelledIf F m k₁ (l₀ ++ [t]) l s.advance b s' f) : SpelledIf F m k l₀ l s b s' f' := by
  obtain ⟨i, rest, hs, rfl⟩ := Reading.token?_eq_some.1 ht
  have advance : s.advance = { s with rest, lastEnd := i.span.stop } :=
    Reading.advance_eq hs
  obtain ⟨cs, rest₂, rec₂, told⟩ := hf
  have whole : s.rest = [i] ++ s.advance.rest := by rw [hs, advance]; rfl
  refine ⟨i :: cs, by rw [whole, rest₂]; rfl, ?_, fun clean => ?_⟩
  · rwa [advance] at rec₂
  obtain ⟨-, clean₂⟩ := clean.split whole rec₂
  obtain ⟨l₂, hl₂, w₂, g₂, reads⟩ := told clean₂
  obtain ⟨respells, holds⟩ := lead.2 w₂.respells g₂
  refine ⟨i.token :: l₂, by rw [hl₂, List.append_assoc]; rfl, w₂.cons lead.1 respells, ?_,
    fun admits => ?_⟩
  · rwa [undoc_cons lead.1]
  intro u cs' us copies hu follow ends
  obtain ⟨i', cs₂', rfl, hi, span, ends₁, copies₂⟩ := copies.cons lead.1
  have hu' : u.advance = { u with rest := cs₂' ++ us, lastEnd := i'.span.stop } :=
    Reading.advance_eq hu
  have admits₁ : m.Admits s.advance.rest := admits.suffix ⟨[i], whole.symm⟩
  have ends₂ : m.Ends s.advance.lastEnd u.advance.lastEnd := by rw [advance, hu']; exact ends₁
  rw [hq (Reading.token?_eq_some.2 ⟨i', cs₂' ++ us, hu, hi⟩)]
  obtain ⟨b', u', run₂, same', rest', ends', errors'⟩ :=
    reads admits₁ copies₂ (by rw [hu']) follow ends₂
  exact ⟨b', u', run₂, same', rest', ends', by rw [errors', hu']⟩

/-- What is read again may be read by a rule that sees the same. -/
theorem of_seen [k.IsPiece] (h : SpelledIf F m k l₀ l s a s' q)
    (hq : ∀ {u : Reading} {xs ys us : List Token}, k.Holds xs ys → s.tokens = xs ++ s'.tokens →
      u.tokens = ys ++ us → F s'.tokens us → (xs ≠ [] → m.Same s.span u.span) → q' u = q u) :
    SpelledIf F m k l₀ l s a s' q' := by
  obtain ⟨cs, rest, recorded, told⟩ := h
  refine ⟨cs, rest, recorded, fun clean => ?_⟩
  obtain ⟨l₁, hl, w, g, reads⟩ := told clean
  refine ⟨l₁, hl, w, g, fun admits => ?_⟩
  intro u cs' us copies hu follow ends
  rw [hq (copies.holds g) (by simp [Reading.tokens, rest]) (by simp [Reading.tokens, hu]) follow
    fun ne => copies.span (fun e => ne (by rw [e]; rfl)) rest hu]
  exact reads admits copies hu follow ends

/-- The next token is seen. -/
theorem of_head [k.IsWhole] (h : SpelledIf F m k l₀ l s a s' q)
    (hq : ∀ {u : Reading}, u.token? = s.token? → m.Same s.span u.span → q' u = q u) :
    SpelledIf F m k l₀ l s a s' q' := by
  refine h.of_seen fun {u xs ys us} hold hs hu _ same => ?_
  obtain ⟨mirrors, ne, -⟩ := Grade.IsWhole.phrase hold
  refine hq ?_ (same ne)
  rw [← Reading.head?_tokens, ← Reading.head?_tokens, hs, hu]
  exact (mirrors.head_append_ne_nil ne _ _).symm

/-- It is seen whether a colon follows the next token, unless that token is all there is. -/
theorem of_second [k.IsWhole] (h : Spelled m k l₀ l s a s' q)
    (hq : ∀ {u : Reading}, (s.tokenAt? 1 = some (.symbol .colon) ↔
        u.tokenAt? 1 = some (.symbol .colon)) ∨
      s.rest.length = s'.rest.length + 1 ∧ s.tokenAt? 1 = some (.symbol .colon) →
      q' u = q u) : Spelled m k l₀ l s a s' q' := by
  refine h.of_seen fun {u xs ys us} hold hs hu follow _ => hq ?_
  obtain ⟨mirrors, ne, -⟩ := Grade.IsWhole.phrase hold
  rw [← Reading.getElem?_tokens, ← Reading.getElem?_tokens, hs, hu]
  refine (mirrors.second_of_follow ne follow).imp id fun ⟨one, colon⟩ => ⟨?_, colon⟩
  have lengths := congrArg List.length hs
  simp only [Reading.tokens, List.length_append, List.length_map, one] at lengths
  omega

/-- What is read again by either of two rules is read again by one that is one of them. -/
theorem either {q₁ q₂ : Parser α} (h₁ : SpelledIf F m k l₀ l s a s' q₁)
    (h₂ : SpelledIf F m k l₀ l s a s' q₂) (hq : ∀ u, q u = q₁ u ∨ q u = q₂ u) :
    SpelledIf F m k l₀ l s a s' q := by
  obtain ⟨cs, rest, recorded, told⟩ := h₁
  refine ⟨cs, rest, recorded, fun clean => ?_⟩
  obtain ⟨l₁, hl, w, g, reads⟩ := told clean
  refine ⟨l₁, hl, w, g, fun admits => ?_⟩
  intro u cs' us copies hu follow ends
  rcases hq u with run | run
  · rw [run]
    exact reads admits copies hu follow ends
  · rw [run]
    exact h₂.rereads clean admits rest hl copies hu follow ends

/-- It is seen what decides about the next token. -/
theorem of_look [k.IsPiece] (h : SpelledIf F m k l₀ l s a s' q)
    (hq : ∀ {u : Reading}, look s.tokens = look u.tokens ∨ F s.tokens u.tokens → q' u = q u) :
    SpelledIf F m k l₀ l s a s' q' := by
  refine h.of_seen fun {u xs ys us} hold hs hu follow _ => hq ?_
  obtain ⟨mirrors, looks⟩ := Grade.IsPiece.piece hold
  rw [hs, hu]
  by_cases ne : xs = []
  · obtain rfl := mirrors.nil_iff.1 ne
    subst ne
    exact .inr follow
  · exact .inl (looks ne _ _)

theorem located [k.IsWhole] (h : SpelledIf F m k l₀ l s a s' q) :
    SpelledIf F m k l₀ l s (a, s'.spanFrom s.span.start) s' (Grammar.located q) := by
  obtain ⟨cs, rest, recorded, told⟩ := h
  refine ⟨cs, rest, recorded, fun clean => ?_⟩
  obtain ⟨l₁, hl, w, g, reads⟩ := told clean
  refine ⟨l₁, hl, w, g, fun admits => ?_⟩
  intro u cs' us copies hu follow ends
  have ne : cs ≠ [] := fun e => (Grade.IsWhole.phrase g).2.1 (by rw [e]; rfl)
  obtain ⟨a', u', run, same, hu', ends', errors⟩ := reads admits copies hu follow ends
  refine ⟨(a', u'.spanFrom u.span.start), u', located_ok.2 ⟨run, rfl⟩, ?_, hu', ends', errors⟩
  exact Prod.ext same ((copies.span ne rest hu).spanFrom ends')

/-- Diagnostics that are no errors change nothing. -/
theorem of_quiet (rest : s₁.rest = s.rest) (ends : s₁.lastEnd = s.lastEnd)
    (recorded : s.recorded <:+ s₁.recorded) (h : SpelledIf F m k l₀ l s₁ a s' q) :
    SpelledIf F m k l₀ l s a s' q := by
  obtain ⟨cs, rest', recorded', told⟩ := h
  refine ⟨cs, rest ▸ rest', recorded.trans recorded', fun clean => ?_⟩
  obtain ⟨l₁, hl, w, g, reads⟩ := told ⟨by rw [rest]; exact clean.tokens, clean.recorded⟩
  refine ⟨l₁, hl, w, g, fun admits => ?_⟩
  intro u cs' us copies hu follow hends
  exact reads (by rwa [rest]) copies hu follow (by rwa [ends])

/-- Nor do they when the result is read again. -/
theorem quiet (h : SpelledIf F m k l₀ l s a s' q)
    (hq : ∀ u, ∃ u₁, q' u = q u₁ ∧ u₁.rest = u.rest ∧ u₁.lastEnd = u.lastEnd ∧
      u₁.recorded.filter Diagnostic.isError = u.recorded.filter Diagnostic.isError) :
    SpelledIf F m k l₀ l s a s' q' := by
  obtain ⟨cs, rest, recorded, told⟩ := h
  refine ⟨cs, rest, recorded, fun clean => ?_⟩
  obtain ⟨l₁, hl, w, g, reads⟩ := told clean
  refine ⟨l₁, hl, w, g, fun admits => ?_⟩
  intro u cs' us copies hu follow ends
  obtain ⟨u₁, run, rest₁, ends₁, errors₁⟩ := hq u
  rw [run, ← errors₁]
  exact reads admits copies (rest₁.trans hu) follow (by rwa [ends₁])

/-- What is told of a clean run need not be told of one that is not. -/
theorem of_not_clean {k₁ : Nat} (h : s.Onward k₁ s') (no : ¬ Clean s s') :
    SpelledIf F m k l₀ l s a s' q := by
  obtain ⟨cs, rest⟩ := h.rest
  exact ⟨cs, rest.symm, h.recorded, fun clean => absurd clean no⟩

/-- A phrase that begins with no colon can be told apart from nothing. -/
theorem fragment (h : SpelledIf F m .phrase l₀ l s a s' q)
    (hs : s.token? ≠ some (.symbol .colon)) : SpelledIf F m .fragment l₀ l s a s' q := by
  obtain ⟨cs, rest, recorded, told⟩ := h
  refine ⟨cs, rest, recorded, fun clean => ?_⟩
  obtain ⟨l₁, hl, w, ⟨mirrors, ne, -⟩, reads⟩ := told clean
  have head : (cs.map Item.token).head? = s.token? := by
    rw [← Reading.head?_tokens, Reading.tokens, rest, List.map_append, head?_append ne]
  exact ⟨l₁, hl, w, ⟨mirrors.nil_iff, by rwa [head], by rwa [← mirrors.head, head]⟩, reads⟩

/-- What is made of a result is read again as it is. -/
theorem map {h h' : α → β} (hq : SpelledIf F m k l₀ l s a s' q)
    (same : ∀ a', m.Same a a' → m.Same (h a) (h' a')) :
    SpelledIf F m k l₀ l s (h a) s' (q >>= fun a => Pure.pure (h' a)) := by
  obtain ⟨cs, rest, recorded, told⟩ := hq
  refine ⟨cs, rest, recorded, fun clean => ?_⟩
  obtain ⟨l₁, hl, w, hold, reads⟩ := told clean
  refine ⟨l₁, hl, w, hold, fun admits => ?_⟩
  intro u cs' us copies hu follow ends
  obtain ⟨a', u', run, hs, facts⟩ := reads admits copies hu follow ends
  exact ⟨h' a', u', by rw [bind_of_ok run]; rfl, same a' hs, facts⟩

end SpelledIf

end Mim
