import Mim.Layout
import Mim.Proofs.Lexing
import Mim.Proofs.Step

/-! # Sequences of tokens that read alike

Some punctuation is optional, so one tree can be spelled by more than one sequence of
tokens. Two spellings keep the same essential tokens, and to a rule that looks ahead
they look the same, as long as what follows them does.
-/

namespace Mim

open Grammar

namespace Token

/-- The tokens that a comma may stand in front of without saying anything. -/
def isShut : Token → Bool
  | .symbol .rightParen | .symbol .rightBracket | .symbol .rightBrace | .symbol .semicolon => true
  | _ => false

/-- Whether a token in front of others is optional: a semicolon, a comma in front of what
    is shut, and a bar directly after `with`. -/
def isOptional (afterWith : Bool) (ts : List Token) : Token → Bool
  | .symbol .semicolon => true
  | .symbol .comma => ts.head?.any isShut
  | .symbol .pipe => afterWith
  | _ => false

/-- The tokens that are not optional, in a sequence that may stand after `with`. -/
def essentialAfter (afterWith : Bool) : List Token → List Token
  | [] => []
  | t :: ts =>
    let rest := essentialAfter (t == .keyword .with_) ts
    if t.isOptional afterWith ts then rest else t :: rest

/-- The tokens of a text that are not optional. -/
abbrev essential (ts : List Token) : List Token := essentialAfter false ts

/-- Two sequences keep the same tokens wherever they stand. -/
def Alike (ts us : List Token) : Prop := ∀ b, essentialAfter b ts = essentialAfter b us

namespace Alike

variable {ts us : List Token}

theorem refl (ts : List Token) : Alike ts ts := fun _ => rfl

theorem cons {t : Token} (h : Alike ts us) (ht : t ≠ .symbol .comma) :
    Alike (t :: ts) (t :: us) := by
  intro b
  have optional : t.isOptional b ts = t.isOptional b us := by
    unfold isOptional
    split
    · rfl
    · exact absurd rfl ht
    · rfl
    · rfl
  simp only [essentialAfter, optional, h (t == .keyword .with_)]

/-- A comma is kept unless what is shut follows it. -/
theorem comma_cons (h : Alike ts us) (head : ts.head? = us.head?) :
    Alike (.symbol .comma :: ts) (.symbol .comma :: us) := by
  intro b
  have optional : (symbol .comma).isOptional b ts = (symbol .comma).isOptional b us :=
    congrArg (·.any isShut) head
  simp only [essentialAfter, optional, h _]

theorem essentialAfter_eq (h : ts.head? ≠ some (.symbol .pipe)) (b : Bool) :
    essentialAfter b ts = essential ts := by
  cases ts with
  | nil => rfl
  | cons t ts =>
      have optional : t.isOptional b ts = t.isOptional false ts := by
        unfold isOptional
        split
        · rfl
        · rfl
        · exact absurd rfl h
        · rfl
      simp only [essential, essentialAfter, optional]

/-- A semicolon says nothing. -/
theorem semicolon_right (h : Alike ts us) (head : ts.head? ≠ some (.symbol .pipe)) :
    Alike ts (.symbol .semicolon :: us) := by
  intro b
  rw [essentialAfter_eq head]
  exact h false

theorem semicolon_left (h : Alike ts us) (head : us.head? ≠ some (.symbol .pipe)) :
    Alike (.symbol .semicolon :: ts) us := by
  intro b
  rw [essentialAfter_eq head]
  exact h false

/-- A comma in front of what is shut says nothing. -/
theorem comma_left (h : Alike ts us) (head : ts.head? = us.head?) (shut : ts.head?.any isShut) :
    Alike (.symbol .comma :: ts) us := by
  intro b
  have notPipe : us.head? ≠ some (.symbol .pipe) := by
    intro hp
    rw [head, hp] at shut
    cases shut
  rw [essentialAfter_eq notPipe]
  simp only [essentialAfter, isOptional, shut, if_true]
  exact h false

/-- A bar directly after `with` says nothing. -/
theorem with_cons (h : Alike ts us) (head : us.head? ≠ some (.symbol .pipe)) :
    Alike (.keyword .with_ :: .symbol .pipe :: ts) (.keyword .with_ :: us) := by
  intro b
  have bar : essentialAfter true (.symbol .pipe :: ts) = essentialAfter true us := by
    rw [essentialAfter_eq head]
    exact h false
  exact congrArg (Token.keyword Keyword.with_ :: ·) bar

end Alike

/-! ## What a rule sees ahead -/

/-- The identifiers ahead, and whether a colon follows them. -/
def names (ts : List Token) : List Token × Bool :=
  (ts.takeWhile isGroupAhead.isIdent,
    (ts.dropWhile isGroupAhead.isIdent).head? == some (.symbol .colon))

/-- Whether only what may stand in a subtag list comes before the next parenthesis that
    closes. -/
def endsSubtags (ts : List Token) : Bool :=
  (ts.dropWhile isSubtagToken).head? == some (.symbol .rightParen)

/-- The next token, and what decides about it if it alone does not. -/
def look : List Token → Option Token × Bool
  | .keyword .and_ :: ts => (some (.keyword .and_), (ts.head?.bind lamKind?).isSome)
  | .symbol .leftParen :: ts =>
    (some (.symbol .leftParen), ts.head?.any isSubtagToken && endsSubtags ts)
  | ts => (ts.head?, false)

theorem isGroupAhead_eq (ts : List Token) :
    isGroupAhead ts = (2 ≤ (names ts).1.length && (names ts).2) := rfl

theorem head_look (ts : List Token) : (look ts).1 = ts.head? := by
  unfold look
  split <;> rfl

/-- Whether what is seen begins a subtag list. -/
def opensSubtags (seen : Option Token × Bool) : Bool :=
  seen.1 == some (.symbol .leftParen) && seen.2

theorem isSubtagListAhead_eq (ts : List Token) : isSubtagListAhead ts = opensSubtags (look ts) := by
  unfold opensSubtags
  rw [head_look]
  unfold isSubtagListAhead
  split
  · next ts =>
      cases ts with
      | nil => rfl
      | cons t ts => cases h : isSubtagToken t <;> simp [look, endsSubtags, h]
  · next h =>
      cases ts with
      | nil => rfl
      | cons t ts =>
          have ht : t ≠ .symbol .leftParen := fun ht => h ts (by rw [ht])
          simp [ht]

/-- What follows looks the same. -/
def Looks (ts us : List Token) : Prop := look ts = look us

/-- What may follow an element of a list: it looks the same, or the second is shut. -/
def FollowShut (ts us : List Token) : Prop :=
  Looks ts us ∨ ts.head? ≠ some (.symbol .colon) ∧ us.head?.any isShut

/-- What may follow one spelling and what may follow the other: what may follow an element,
    or a declaration where the first is at its end, or the end. -/
def Follow (ts us : List Token) : Prop :=
  FollowShut ts us ∨ ts = [] ∧ us.head?.any startsDeclaration ∨ us = []

/-- What may follow an element of a binder tuple. -/
def FollowElement (ts us : List Token) : Prop := FollowShut ts us ∧ names ts = names us

theorem Looks.follow {ts us : List Token} (h : Looks ts us) : Follow ts us := .inl (.inl h)

theorem FollowElement.follow {ts us : List Token} (h : FollowElement ts us) : Follow ts us :=
  .inl h.1

theorem FollowShut.colon {ts us : List Token} (h : FollowShut ts us) :
    ts.head? = some (.symbol .colon) ↔ us.head? = some (.symbol .colon) := by
  rcases h with h | ⟨ne, h⟩
  · rw [← head_look, ← head_look, h]
  · refine ⟨fun hc => absurd hc ne, fun hc => ?_⟩
    rw [hc] at h
    cases h

/-- A colon that follows the first is missing at the end only. -/
theorem Follow.colon {ts us : List Token} (h : Follow ts us) :
    (ts.head? = some (.symbol .colon) ↔ us.head? = some (.symbol .colon)) ∨
      ts.head? = some (.symbol .colon) ∧ us = [] := by
  rcases h with h | ⟨rfl, h⟩ | rfl
  · exact .inl h.colon
  · refine .inl ⟨(by simp), fun hc => ?_⟩
    rw [hc] at h
    cases h
  · by_cases hc : ts.head? = some (.symbol .colon)
    · exact .inr ⟨hc, rfl⟩
    · exact .inl (by simp [hc])

/-- What neither the end nor a closing token nor a declaration decides for is not decided
    for. -/
theorem Follow.stops {c : Option Token × Bool → Bool} {ts us : List Token} (h : Follow ts us)
    (end_ : c (none, false) = false)
    (hc : ∀ t : Token, t.isShut ∨ t.startsDeclaration → c (some t, false) = false)
    (no : c (look ts) = false) : c (look us) = false := by
  have stop : ∀ t us, t.isShut ∨ t.startsDeclaration → c (look (t :: us)) = false := by
    intro t us ht
    have looks : look (t :: us) = (some t, false) := by
      unfold look
      split
      · next e => rw [(List.cons.inj e).1] at ht; rcases ht with ht | ht <;> cases ht
      · next e => rw [(List.cons.inj e).1] at ht; rcases ht with ht | ht <;> cases ht
      · rfl
    rw [looks]
    exact hc t ht
  rcases h with (h | ⟨-, h⟩) | ⟨-, h⟩ | rfl
  · rwa [← show look ts = look us from h]
  · cases us with
    | nil => cases h
    | cons t us => exact stop t us (.inl h)
  · cases us with
    | nil => cases h
    | cons t us => exact stop t us (.inr h)
  · exact end_

/-- Two sequences that every rule reads alike, if what follows them looks alike. -/
structure Mirrors (xs ys : List Token) : Prop where
  head : xs.head? = ys.head?
  names {ts us : List Token} :
    Token.names ts = Token.names us → Token.names (xs ++ ts) = Token.names (ys ++ us)
  subtags {ts us : List Token} :
    endsSubtags ts = endsSubtags us → endsSubtags (xs ++ ts) = endsSubtags (ys ++ us)
  /-- The first token has a colon after it in both or in neither. -/
  second {ts us : List Token} : xs ≠ [] →
    (ts.head? = some (.symbol .colon) ↔ us.head? = some (.symbol .colon)) →
    ((xs ++ ts)[1]? = some (.symbol .colon) ↔ (ys ++ us)[1]? = some (.symbol .colon))

namespace Mirrors

variable {xs ys xs' ys' : List Token}

theorem nil_iff (h : Mirrors xs ys) : xs = [] ↔ ys = [] := by
  rw [← List.head?_eq_none_iff, ← List.head?_eq_none_iff, h.head]

theorem head_append (h : Mirrors xs ys) {ts us : List Token} (follow : ts.head? = us.head?) :
    (xs ++ ts).head? = (ys ++ us).head? := by
  rw [List.head?_append, List.head?_append, h.head, follow]

theorem head_append_ne_nil (h : Mirrors xs ys) (ne : xs ≠ []) (ts us : List Token) :
    (xs ++ ts).head? = (ys ++ us).head? := by
  rw [List.head?_append, List.head?_append, h.head]
  cases hy : ys.head? with
  | none => exact absurd (h.nil_iff.2 (List.head?_eq_none_iff.1 hy)) ne
  | some t => rfl

/-- As `second`, where a colon may be missing at the end. -/
theorem second_of_follow (h : Mirrors xs ys) {ts us : List Token} (ne : xs ≠ [])
    (follow : Follow ts us) :
    ((xs ++ ts)[1]? = some (.symbol .colon) ↔ (ys ++ us)[1]? = some (.symbol .colon)) ∨
      xs.length = 1 ∧ (xs ++ ts)[1]? = some (.symbol .colon) := by
  rcases follow.colon with same | ⟨hc, rfl⟩
  · exact .inl (h.second ne same)
  · obtain _ | ⟨x, _ | ⟨x', xs⟩⟩ := xs
    · exact absurd rfl ne
    · exact .inr ⟨rfl, by simpa [← List.head?_eq_getElem?] using hc⟩
    · exact .inl (by simpa using @Mirrors.second _ _ h [] [] ne Iff.rfl)

theorem nil : Mirrors [] [] where
  head := rfl
  names h := h
  subtags h := h
  second ne := absurd rfl ne

theorem token (t : Token) : Mirrors [t] [t] where
  head := rfl
  names {ts us} h := by
    simp only [Token.names, Prod.mk.injEq] at h
    cases ht : isGroupAhead.isIdent t <;> simp [Token.names, ht, h.1, h.2]
  subtags {ts us} h := by
    simp only [endsSubtags] at h
    cases ht : isSubtagToken t <;> simp [endsSubtags, ht, h]
  second {ts us} _ follow := by simpa [← List.head?_eq_getElem?] using follow

theorem append (h : Mirrors xs ys) (h' : Mirrors xs' ys') : Mirrors (xs ++ xs') (ys ++ ys') where
  head := h.head_append h'.head
  names hn := by simpa using h.names (h'.names hn)
  subtags hs := by simpa using h.subtags (h'.subtags hs)
  second {ts us} ne follow := by
    rw [List.append_assoc, List.append_assoc]
    by_cases hx : xs = []
    · obtain rfl := h.nil_iff.1 hx
      subst hx
      exact h'.second (by simpa using ne) follow
    · refine h.second hx ?_
      rw [List.head?_append, List.head?_append, h'.head]
      cases hy : ys'.head? with
      | none => simpa using follow
      | some t => simp

theorem refl : ∀ xs : List Token, Mirrors xs xs
  | [] => nil
  | t :: xs => append (token t) (refl xs)

end Mirrors

/-- Two sequences look the same to a rule in front of them, whatever follows them. -/
def LooksAlike (xs ys : List Token) : Prop := ∀ ts us, look (xs ++ ts) = look (ys ++ us)

theorem LooksAlike.ne_nil {xs : List Token} (h : LooksAlike xs xs) : xs ≠ [] := by
  rintro rfl
  cases h [] [.percent]

theorem LooksAlike.append {xs ys xs' ys' : List Token} (h : LooksAlike xs ys) :
    LooksAlike (xs ++ xs') (ys ++ ys') := by
  intro ts us
  rw [List.append_assoc, List.append_assoc]
  exact h _ _

/-- How far two spellings can be told to be alike by themselves. -/
inductive Grade where
  /-- Only with a keyword in front of them. -/
  | fragment
  /-- Unless they are empty, they look the same. -/
  | piece
  /-- They are not empty and look the same. -/
  | phrase
  /-- They are not empty, look the same, and end whatever could be a subtag list. -/
  | closed
  /-- They end a list after an element of it. -/
  | tail

namespace Grade

/-- What a grade says of two spellings. -/
def Holds (xs ys : List Token) : Grade → Prop
  | .fragment => (xs = [] ↔ ys = []) ∧ xs.head? ≠ some (.symbol .colon) ∧
    ys.head? ≠ some (.symbol .colon)
  | .piece => Mirrors xs ys ∧ (xs ≠ [] → LooksAlike xs ys)
  | .phrase => Mirrors xs ys ∧ xs ≠ [] ∧ LooksAlike xs ys
  | .closed => Mirrors xs ys ∧ (xs ≠ [] ∧ LooksAlike xs ys) ∧
    ∀ ts us, endsSubtags (xs ++ ts) = endsSubtags (ys ++ us)
  | .tail => ∀ zs, zs = xs ∨ zs = ys → ∀ ts us, FollowElement (xs ++ ts) (zs ++ us) ∧
    endsSubtags (xs ++ ts) = endsSubtags (zs ++ us)

/-- A grade of spellings that are alike by themselves, which they keep after a piece. -/
class IsPiece (k : Grade) : Prop where
  piece {xs ys : List Token} : k.Holds xs ys → piece.Holds xs ys
  append {xs ys xs' ys' : List Token} :
    Mirrors (xs ++ xs') (ys ++ ys') → Mirrors xs ys → xs ≠ [] → LooksAlike xs ys →
    k.Holds xs' ys' → k.Holds (xs ++ xs') (ys ++ ys')

/-- A grade of spellings that are not empty. -/
class IsWhole (k : Grade) : Prop extends IsPiece k where
  phrase {xs ys : List Token} : k.Holds xs ys → phrase.Holds xs ys

/-- A grade that phrases have. -/
class IsLoose (k : Grade) : Prop where
  loosen {xs ys : List Token} : phrase.Holds xs ys → k.Holds xs ys

instance : IsPiece .piece where
  piece := id
  append m _ _ looks _ := ⟨m, fun _ => looks.append⟩

instance : IsWhole .phrase where
  piece h := ⟨h.1, fun _ => h.2.2⟩
  append m _ ne looks _ := ⟨m, by simp [ne], looks.append⟩
  phrase := id

instance : IsWhole .closed where
  piece h := ⟨h.1, fun _ => h.2.1.2⟩
  append m m₁ ne looks h := by
    refine ⟨m, ⟨by simp [ne], looks.append⟩, fun ts us => ?_⟩
    rw [List.append_assoc, List.append_assoc]
    exact m₁.subtags (h.2.2 ts us)
  phrase h := ⟨h.1, h.2.1⟩

instance : IsLoose .phrase := ⟨id⟩

instance : IsLoose .piece := ⟨IsPiece.piece⟩

variable {xs ys xs' ys' : List Token} {k : Grade}

theorem nil : piece.Holds [] [] := ⟨Mirrors.nil, fun ne => absurd rfl ne⟩

/-- What is told of two spellings is told of the first of them by itself. -/
theorem Holds.self (h : k.Holds xs ys) : k.Holds xs xs := by
  have self : LooksAlike xs ys → LooksAlike xs xs := fun h ts us => (h ts []).trans (h us []).symm
  cases k with
  | fragment => exact ⟨Iff.rfl, h.2.1, h.2.1⟩
  | piece => exact ⟨Mirrors.refl xs, fun ne => self (h.2 ne)⟩
  | phrase => exact ⟨Mirrors.refl xs, h.2.1, self h.2.2⟩
  | closed =>
      exact ⟨Mirrors.refl xs, ⟨h.2.1.1, self h.2.1.2⟩,
        fun ts us => (h.2.2 ts []).trans (h.2.2 us []).symm⟩
  | tail => exact fun zs hz => h zs (.inl (hz.elim id id))

/-- A phrase and a piece after it are a phrase. -/
theorem phrase_append (h : phrase.Holds xs ys) (h' : piece.Holds xs' ys') :
    phrase.Holds (xs ++ xs') (ys ++ ys') :=
  ⟨h.1.append h'.1, by simp [h.2.1], h.2.2.append⟩

/-- What is closed stays closed. -/
theorem closed_append (h : closed.Holds xs ys) (h' : piece.Holds xs' ys') :
    closed.Holds (xs ++ xs') (ys ++ ys') := by
  refine ⟨h.1.append h'.1, ⟨by simp [h.2.1.1], h.2.1.2.append⟩, fun ts us => ?_⟩
  rw [List.append_assoc, List.append_assoc]
  exact h.2.2 _ _

/-- An element and the rest of the list. -/
theorem phrase_tail (h : phrase.Holds xs ys) (h' : tail.Holds xs' ys') :
    closed.Holds (xs ++ xs') (ys ++ ys') := by
  obtain ⟨m, ne, looks⟩ := h
  have mirrors : Mirrors (xs ++ xs') (ys ++ ys') :=
    { head := m.head_append_ne_nil ne _ _
      names := by
        intro ts us _
        rw [List.append_assoc, List.append_assoc]
        exact m.names (h' ys' (.inr rfl) ts us).1.2
      subtags := by
        intro ts us _
        rw [List.append_assoc, List.append_assoc]
        exact m.subtags (h' ys' (.inr rfl) ts us).2
      second := by
        intro ts us _ _
        rw [List.append_assoc, List.append_assoc]
        exact m.second ne (h' ys' (.inr rfl) ts us).1.1.colon }
  refine ⟨mirrors, ⟨by simp [ne], looks.append⟩, fun ts us => ?_⟩
  rw [List.append_assoc, List.append_assoc]
  exact m.subtags (h' ys' (.inr rfl) ts us).2

/-- What stands after a piece passes its grade on to the whole. -/
theorem piece_append [k.IsPiece] (h : piece.Holds xs ys) (h' : k.Holds xs' ys') :
    k.Holds (xs ++ xs') (ys ++ ys') := by
  by_cases ne : xs = []
  · obtain rfl := h.1.nil_iff.1 ne
    subst ne
    exact h'
  · exact IsPiece.append (h.1.append (IsPiece.piece h').1) h.1 ne (h.2 ne) h'

/-- What follows two spellings follows, with the second of two parts in front of it, the
    first part. -/
theorem Holds.follow {F : List Token → List Token → Prop} {ts us : List Token} [k.IsPiece]
    (hF : ∀ {ts us}, Looks ts us → F ts us) (h : k.Holds xs ys) (follow : F ts us) :
    F (xs ++ ts) (ys ++ us) := by
  obtain ⟨m, looks⟩ := IsPiece.piece h
  by_cases ne : xs = []
  · obtain rfl := m.nil_iff.1 ne
    subst ne
    exact follow
  · exact hF (looks ne ts us)

end Grade

/-- Two spellings keep the same tokens, if what follows them does. -/
def Respells (xs ys : List Token) : Prop :=
  ∀ ts us : List Token, Alike ts us → Alike (xs ++ ts) (ys ++ us)

namespace Respells

variable {xs ys xs' ys' : List Token}

theorem nil : Respells [] [] := fun _ _ h => h

theorem append (h : Respells xs ys) (h' : Respells xs' ys') :
    Respells (xs ++ xs') (ys ++ ys') := by
  intro ts us a
  rw [List.append_assoc, List.append_assoc]
  exact h _ _ (h' _ _ a)

theorem cons {t : Token} (h : Respells xs ys) (ht : t ≠ .symbol .comma) :
    Respells (t :: xs) (t :: ys) := fun _ _ a => (h _ _ a).cons ht

theorem comma_cons (h : Respells xs ys) (m : Mirrors xs ys) (ne : xs ≠ []) :
    Respells (.symbol .comma :: xs) (.symbol .comma :: ys) := fun _ _ a =>
  (h _ _ a).comma_cons (m.head_append_ne_nil ne _ _)

/-- A comma in front of what is shut says nothing. -/
theorem comma_shut {t : Token} (h : Respells xs ys) (ht : t.isShut) :
    Respells (xs ++ [.symbol .comma, t]) (ys ++ [t]) := by
  intro ts us a
  have notComma : t ≠ .symbol .comma := by rintro rfl; cases ht
  rw [List.append_assoc, List.append_assoc]
  exact h _ _ ((a.cons notComma).comma_left rfl (by simpa using ht))

/-- A semicolon says nothing, unless a bar follows it. -/
theorem semicolon (h : Respells xs ys) (h' : Respells xs' ys') (ne : xs' ≠ [])
    (head : xs'.head? ≠ some (.symbol .pipe)) :
    Respells (xs ++ xs') (ys ++ .symbol .semicolon :: ys') := by
  intro ts us a
  rw [List.append_assoc, List.append_assoc]
  refine h _ _ ((h' _ _ a).semicolon_right ?_)
  cases xs' with
  | nil => exact absurd rfl ne
  | cons t xs' => exact head

end Respells

section Shut

variable {t : Token}

theorem names_shut (ht : t.isShut) (ts : List Token) : names (t :: ts) = ([], false) := by
  unfold isShut at ht
  split at ht <;> first | rfl | cases ht

theorem endsSubtags_shut (ht : t.isShut) (ts : List Token) :
    endsSubtags (t :: ts) = (t == .symbol .rightParen) := by
  unfold isShut at ht
  split at ht <;> first | rfl | cases ht

end Shut

namespace Mirrors

variable {xs ys xs' ys' : List Token} {t : Token}

/-- Past a keyword no rule looks further than at the next token. -/
theorem keyword {k : Keyword} (h : ∀ ts us : List Token,
    (ts.head? = some (.symbol .colon) ↔ us.head? = some (.symbol .colon)) →
      ((xs ++ ts).head? = some (.symbol .colon) ↔ (ys ++ us).head? = some (.symbol .colon))) :
    Mirrors (.keyword k :: xs) (.keyword k :: ys) where
  head := rfl
  names _ := rfl
  subtags _ := rfl
  second {ts us} _ follow := by simpa [← List.head?_eq_getElem?] using h ts us follow

end Mirrors

/-- What a token in front of two spellings of a grade makes of them. -/
def Grade.Leads (t : Token) (k' k : Grade) : Prop :=
  t.isDoc = false ∧ ∀ {xs ys : List Token}, Respells xs ys → k'.Holds xs ys →
    Respells (t :: xs) (t :: ys) ∧ k.Holds (t :: xs) (t :: ys)

/-- The tokens that look the same whatever follows them. -/
def isPlain : Token → Bool
  | .doc _ | .keyword .and_ | .symbol .leftParen | .symbol .comma => false
  | _ => true

namespace Grade

variable {t : Token} {k : Grade}

theorem look_plain (h : t.isPlain) (ts : List Token) : look (t :: ts) = (some t, false) := by
  unfold look
  split
  · next e => rw [(List.cons.inj e).1] at h; cases h
  · next e => rw [(List.cons.inj e).1] at h; cases h
  · rfl

theorem isDoc_of_isPlain (h : t.isPlain) : t.isDoc = false := by
  cases t <;> first | rfl | cases h

theorem isPlain_of_isShut (h : t.isShut) : t.isPlain := by
  unfold isShut at h
  split at h <;> first | rfl | cases h

theorem leads_plain {k' : Grade} [k.IsPiece] [k'.IsLoose] (h : t.isPlain) : Leads t k k' := by
  have comma : t ≠ .symbol .comma := by rintro rfl; cases h
  refine ⟨isDoc_of_isPlain h, fun r hr =>
    ⟨r.cons comma, IsLoose.loosen ⟨?_, by simp, fun ts us => ?_⟩⟩⟩
  · exact (Mirrors.token t).append (IsPiece.piece hr).1
  · rw [List.cons_append, List.cons_append, look_plain h, look_plain h]

/-- After a keyword nothing need be alike. -/
theorem leads_keyword {word : Keyword} (h : word ≠ .and_) :
    Leads (.keyword word) .fragment .phrase := by
  have plain : (Token.keyword word).isPlain := by cases word <;> first | rfl | exact absurd rfl h
  refine ⟨rfl, fun {xs ys} r hr => ⟨r.cons (by simp), Mirrors.keyword fun ts us follow => ?_,
    by simp, fun ts us => ?_⟩⟩
  · obtain ⟨nil, hx, hy⟩ := hr
    cases xs with
    | nil => rwa [nil.1 rfl]
    | cons x xs =>
        cases ys with
        | nil => cases nil.2 rfl
        | cons y ys => exact ⟨fun e => absurd e hx, fun e => absurd e hy⟩
  · rw [List.cons_append, List.cons_append, look_plain plain, look_plain plain]

/-- A closing token ends whatever could be a subtag list. -/
theorem leads_shut [k.IsPiece] (h : t.isShut) : Leads t k .closed := by
  have plain := isPlain_of_isShut h
  refine ⟨isDoc_of_isPlain plain, fun r hr => ?_⟩
  obtain ⟨r', m, looks⟩ := (show Leads t k .phrase from leads_plain plain).2 r hr
  refine ⟨r', m, looks, fun ts us => ?_⟩
  rw [List.cons_append, List.cons_append, endsSubtags_shut h, endsSubtags_shut h]

theorem leads_comma {k' : Grade} [k.IsWhole] [k'.IsLoose] : Leads (.symbol .comma) k k' := by
  refine ⟨rfl, fun r h => ?_⟩
  obtain ⟨m, ne, -⟩ := IsWhole.phrase h
  exact ⟨r.comma_cons m ne,
    IsLoose.loosen ⟨(Mirrors.token _).append m, by simp, fun _ _ => rfl⟩⟩

theorem leads_comma_closed : Leads (.symbol .comma) .closed .closed := by
  refine ⟨rfl, fun r h => ?_⟩
  obtain ⟨r', m, looks⟩ := (show Leads (.symbol .comma) .closed .phrase from leads_comma).2 r h
  exact ⟨r', m, looks, fun ts us => (Mirrors.token _).subtags (h.2.2 ts us)⟩

/-- A comma and a list that is not empty. -/
theorem leads_comma_tail : Leads (.symbol .comma) .closed .tail := by
  refine ⟨rfl, fun {xs ys} r h => ⟨(leads_comma_closed.2 r h).1, ?_⟩⟩
  intro zs hz ts us
  refine ⟨⟨.inl ?_, ?_⟩, ?_⟩
  all_goals rcases hz with rfl | rfl
  · rfl
  · rfl
  · rfl
  · rfl
  · exact (Mirrors.token _).subtags (h.self.2.2 ts us)
  · exact (Mirrors.token _).subtags (h.2.2 ts us)

/-- A closing token, whatever stands after it. -/
theorem leads_shut_tail (h : t.isShut) : Leads t k .tail := by
  have comma : t ≠ .symbol .comma := by rintro rfl; cases h
  refine ⟨isDoc_of_isPlain (isPlain_of_isShut h), fun {xs ys} r hr => ⟨r.cons comma, ?_⟩⟩
  intro zs hz ts us
  have shut : ∀ zs, (t :: zs).head?.any isShut := fun _ => h
  have colon : t ≠ .symbol .colon := by rintro rfl; cases h
  have comes : ∃ zs', zs = t :: zs' := by rcases hz with rfl | rfl <;> exact ⟨_, rfl⟩
  obtain ⟨zs', rfl⟩ := comes
  simp only [List.cons_append]
  refine ⟨⟨.inr ⟨by simpa using colon, shut _⟩, ?_⟩, ?_⟩
  · rw [names_shut h, names_shut h]
  · rw [endsSubtags_shut h, endsSubtags_shut h]

/-- A comma after the last element is left out. -/
theorem tail_comma_shut (h : t.isShut) : tail.Holds [.symbol .comma, t] [t] := by
  intro zs hz ts us
  rcases hz with rfl | rfl
  · refine ⟨⟨.inl rfl, rfl⟩, ?_⟩
    exact (Mirrors.token _).subtags (by
      change endsSubtags (t :: ts) = endsSubtags (t :: us)
      rw [endsSubtags_shut h, endsSubtags_shut h])
  · refine ⟨⟨.inr ⟨by simp, h⟩, (names_shut h us).symm⟩, ?_⟩
    change endsSubtags (t :: ts) = endsSubtags (t :: us)
    rw [endsSubtags_shut h, endsSubtags_shut h]

theorem leads_and [k.IsWhole] : Leads (.keyword .and_) k .phrase := by
  refine ⟨rfl, fun r h => ?_⟩
  obtain ⟨m, ne, -⟩ := IsWhole.phrase h
  refine ⟨r.cons (by simp), (Mirrors.token _).append m, by simp, fun ts us => ?_⟩
  simp only [List.cons_append, look, m.head_append_ne_nil ne ts us]

/-- A parenthesis that is closed again looks the same. -/
theorem leads_paren : Leads (.symbol .leftParen) .closed .phrase := by
  refine ⟨rfl, fun r h => ?_⟩
  refine ⟨r.cons (by simp), (Mirrors.token _).append h.1, by simp, fun ts us => ?_⟩
  simp only [List.cons_append, look, h.1.head_append_ne_nil h.2.1.1 ts us, h.2.2 ts us]

end Grade

end Token

end Mim
