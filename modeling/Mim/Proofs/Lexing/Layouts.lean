import Mim.Proofs.Apart
import Mim.Proofs.Lexing.Parts
import Mim.Proofs.Lexing.Tokens
import Mim.Proofs.Spells.Layout

/-! # Layouts read back

The text of a layout whose tokens are kept apart has these tokens and no others.
-/

namespace Mim

open Shape Scan

namespace Scan

variable {c d : Char} {cs ds text : List Char} {t : Token}

/-- What no sign goes on with ends a sign. -/
theorem sign_apart (h : ∀ s ∈ Token.signs, ¬ text ++ [d] <+: s.1) (ds : List Char) :
    sign (text ++ d :: ds) = sign text := by
  rw [sign_eq, sign_eq, longest_congr]
  intro s hs
  rw [Bool.eq_iff_iff, List.isPrefixOf_iff_prefix, List.isPrefixOf_iff_prefix]
  refine ⟨fun whole => ?_, fun part => part.trans (List.prefix_append _ _)⟩
  by_cases short : s.1.length ≤ text.length
  · exact List.prefix_of_prefix_length_le whole (List.prefix_append _ _) short
  · have further : text ++ [d] <+: text ++ d :: ds := ⟨ds, by simp⟩
    refine absurd (List.prefix_of_prefix_length_le further whole ?_) (h s hs)
    simp
    omega

/-- What is taken does not change where the text goes on with what joins no word and no
    number, and no longer sign. -/
theorem first_apart (hd : isJoint d = false) (token : (first c cs).token? = some t)
    (clean : ∀ reason, t ≠ .error reason) (plain : t.isDoc = false)
    (lone : ∀ s ∈ Token.signs, s.2 = t → ∀ x ∈ Token.signs, ¬ c :: cs ++ [d] <+: x.1)
    (ds : List Char) : first c (cs ++ d :: ds) = first c cs := by
  have isClean : (first c cs).IsClean := fun reason broken =>
    clean reason (Option.some.inj (token.symm.trans broken))
  rcases lead_cases c with h | h | rfl | rfl | rfl | rfl | h
  · rw [first_blank h] at token
    cases token
  · have stop : isWordChar d = false := by
      simp only [isJoint, Bool.or_eq_false_iff] at hd
      exact hd.1.1.1
    have same : run isWordChar (cs ++ d :: ds) = run isWordChar cs := run_append_cons stop cs ds
    rw [first_word h, first_word h, same, List.take_append_of_le_length (run_le_length _ cs)]
  · exact percent_append hd cs ds
  · exact string_append isClean _
  · exact char_append isClean _
  · rw [first_slash] at token
    unfold slash at token
    split at token
    · rw [← Option.some.inj token] at plain
      cases plain
    · cases token
    · split at token
      · cases token
      · exact absurd (Option.some.inj token).symm (clean _)
    · exact absurd (Option.some.inj token).symm (clean _)
  · have same := numeral_stop hd (c :: cs) ds
    rw [List.cons_append] at same
    rw [first_sign h] at token
    rw [first_sign h, first_sign h, same]
    split
    · exact number_append hd rfl ds
    · next none =>
        rw [if_neg none, sign_eq] at token
        refine sign_apart (lone _ ?_ (Option.some.inj token)) ds
        refine (longest_mem _ _ _).resolve_left fun eq => ?_
        rw [eq] at token
        exact clean _ (Option.some.inj token).symm

end Scan

namespace Token

/-- No sign but these four begins a longer one. -/
theorem lone {s x : List Char × Token} (hs : s ∈ signs) (hx : x ∈ signs)
    (single : s.2 ≠ .symbol .assign ∧ s.2 ≠ .symbol .pipe ∧ s.2 ≠ .symbol .leftBrace ∧
      s.2 ≠ .symbol .dot) (d : Char) : ¬ s.2.text ++ [d] <+: x.1 := by
  have table : ∀ s ∈ signs, (s.2 ≠ .symbol .assign ∧ s.2 ≠ .symbol .pipe ∧
      s.2 ≠ .symbol .leftBrace ∧ s.2 ≠ .symbol .dot) → ∀ x ∈ signs, s.2.text.isPrefixOf x.1 →
      x.1.length ≤ s.2.text.length := by decide +kernel
  intro longer
  have le := table s hs single x hx
    (List.isPrefixOf_iff_prefix.2 ((List.prefix_append _ _).trans longer))
  have := longer.length_le
  simp at this
  omega

/-- Where a sign stands no numeral does, whatever follows. -/
theorem symbol_cons (s : Symbol) (h : s ≠ .dot) : ∃ c w, s.text.toList = c :: w ∧
    isNumeralOrSign c ∧ ∀ ds, (numeral (c :: w ++ ds)).1 = 0 := by
  have solid : ∀ {c : Char}, isJoint c = false → ∀ cs, (numeral (c :: cs)).1 = 0 := by
    intro c hc cs
    have within := numeral_within (c :: cs)
    rw [run_cons, hc] at within
    exact Nat.le_zero.1 within
  cases s
  case dot => exact absurd rfl h
  case arrow =>
    refine ⟨'-', ['>'], rfl, rfl, fun ds => ?_⟩
    have natural : natural ('>' :: ds) = 0 := Nat.le_zero.1 (munch_natural.within ('>' :: ds))
    have real : real ('>' :: ds) = 0 := Nat.le_zero.1 (munch_real.within ('>' :: ds))
    simp [numeral, Shape.sign, natural, real]
  all_goals exact ⟨_, _, rfl, rfl, fun ds => solid rfl _⟩

/-- A sign is taken as such where no longer one stands. -/
theorem first_symbol {s : Symbol} (h : s ≠ .dot) {c : Char} {w : List Char}
    (text : (symbol s).text = c :: w) {d : Char}
    (lone : ∀ x ∈ signs, ¬ (symbol s).text ++ [d] <+: x.1) (ds : List Char) :
    first c (w ++ d :: ds) = first c w := by
  obtain ⟨c', w', eq, sign, none⟩ := symbol_cons s h
  obtain ⟨rfl, rfl⟩ := List.cons.inj (eq.symm.trans text)
  have here := none []
  rw [List.append_nil] at here
  have there := none (d :: ds)
  rw [List.cons_append] at there
  rw [first_sign sign, first_sign sign, here, there, if_neg (by simp), if_neg (by simp)]
  rw [text] at lone
  exact sign_apart lone ds

theorem mem_signs (s : Symbol) : ((symbol s).text, symbol s) ∈ signs := by
  have all : s ∈ Symbol.all := by cases s <;> decide
  exact List.mem_append_left _ (List.mem_append_left _ (List.mem_map_of_mem all))

/-- No longer sign stands where a sign stands in front of a piece that it may stand in
    front of. -/
theorem lone_symbol {s : Symbol} {q : Piece} {d : Char} {ds : List Char}
    (joins : (Piece.token (.symbol s)).joins q) (hq : q.text = d :: ds)
    (bar : d = '|' → q = .sign .pipe) : ∀ x ∈ signs, ¬ (symbol s).text ++ [d] <+: x.1 := by
  intro x hx longer
  have solid : ∀ x ∈ signs, ' ' ∉ x.1 := by decide +kernel
  have brace : ∀ x ∈ signs, (symbol .leftBrace).text.isPrefixOf x.1 →
      x.1 = (symbol .leftBrace).text ∨ x.1 = (symbol .leftBrace).text ++ ['|'] := by decide +kernel
  have gap : q = .gap → False := by
    rintro rfl
    obtain ⟨rfl, -⟩ := List.cons.inj hq
    exact solid x hx (longer.subset (by simp))
  by_cases assign : s = .assign
  · subst assign
    exact gap (beq_iff_eq.1 joins)
  by_cases pipe : s = .pipe
  · subst pipe
    exact gap (beq_iff_eq.1 joins)
  by_cases leftBrace : s = .leftBrace
  · subst leftBrace
    have first := List.isPrefixOf_iff_prefix.2 ((List.prefix_append _ [d]).trans longer)
    rcases brace x hx first with eq | eq
    · have := longer.length_le
      rw [eq] at this
      simp at this
    · rw [eq, List.prefix_append_right_inj] at longer
      have same := longer.eq_of_length rfl
      exact absurd (bar (List.cons.inj same).1) (bne_iff_ne.1 joins)
  by_cases dot : s = .dot
  · subst dot
    cases joins
  exact lone (mem_signs s) hx (by simp [assign, pipe, leftBrace, dot]) d longer

end Token

/-- A mark joins no word and no number. -/
theorem Piece.isMark_text {q : Piece} (h : q.isMark) :
    ∃ d ds, q.text = d :: ds ∧ isJoint d = false := by
  unfold isMark at h
  split at h
  · exact ⟨_, _, rfl, rfl⟩
  · exact ⟨_, _, rfl, rfl⟩
  · exact ⟨_, _, rfl, rfl⟩
  · next sign => cases sign <;> first | exact ⟨_, _, rfl, rfl⟩ | cases h
  · cases h

/-- A token in front of a piece that it may stand in front of is read as it is by itself. -/
theorem Token.Reads.apart {t : Token} {c d : Char} {w ds : List Char} {q : Piece}
    (text : t.text = c :: w) (token : (first c w).token? = some t)
    (joins : (Piece.token t).joins q) (hq : q.text = d :: ds) (bar : d = '|' → q = .sign .pipe)
    (rest : List Char) : first c (w ++ d :: rest) = first c w := by
  have mark : q.isMark → isJoint d = false := by
    intro h
    obtain ⟨d', ds', hd, joint⟩ := Piece.isMark_text h
    rw [(List.cons.inj (hq.symm.trans hd)).1]
    exact joint
  have clean : ∀ reason, t ≠ .error reason := by
    rintro reason rfl
    cases joins
  have isClean : (first c w).IsClean := fun reason broken =>
    clean reason (Option.some.inj (token.symm.trans broken))
  -- a word or a number ends where a mark stands
  have opened : q.isMark → t.isDoc = false → (∀ s, t ≠ .symbol s) →
      first c (w ++ d :: rest) = first c w := by
    intro h plain notSymbol
    refine first_apart (mark h) token clean plain (fun s hs ht x hx => ?_) rest
    subst ht
    rw [← text]
    exact lone hs hx ⟨notSymbol _, notSymbol _, notSymbol _, notSymbol _⟩ d
  cases t with
  | symbol s =>
      have notDot : s ≠ .dot := by
        rintro rfl
        cases joins
      exact Token.first_symbol notDot text (Token.lone_symbol joins hq bar) rest
  | doc line =>
      obtain rfl : q = .line := beq_iff_eq.1 joins
      obtain ⟨rfl, -⟩ := List.cons.inj hq
      refine first_newline ?_ isClean rest
      cases blank : isBlank c with
      | false => rfl
      | true =>
          rw [first_blank blank] at token
          cases token
  | literal value =>
      cases value with
      | string value =>
          obtain ⟨rfl, -⟩ := List.cons.inj (show '"' :: _ = c :: w from text)
          exact string_append isClean _
      | char value =>
          obtain ⟨rfl, -⟩ := List.cons.inj (show '\'' :: _ = c :: w from text)
          exact char_append isClean _
      | bool value => exact opened joins rfl (by simp)
      | int value => exact opened joins rfl (by simp)
      | float value => exact opened joins rfl (by simp)
  | percent => cases joins
  | error reason => cases joins
  | keyword word => exact opened joins rfl (by simp)
  | primitive ty => exact opened joins rfl (by simp)
  | ident name => exact opened joins rfl (by simp)
  | annex path => exact opened joins rfl (by simp)

/-- No token but the bar begins with a bar. -/
theorem Token.Reads.bar {t : Token} (h : t.Reads) {w : List Char} (text : t.text = '|' :: w) :
    t = .symbol .pipe := by
  obtain ⟨c, w', text', more, token⟩ := h
  obtain ⟨rfl, rfl⟩ := List.cons.inj (text.symm.trans text')
  have none : (numeral ('|' :: w)).1 = 0 := by
    have within := numeral_within ('|' :: w)
    rwa [run_cons, if_neg (by decide), Nat.le_zero] at within
  rw [first_sign rfl, none, if_neg (by simp), sign_eq] at more token
  have table : ∀ s ∈ signs, s.1 ≠ [] ∧ (s.1.head? = some '|' → s.2.text = s.1 →
      s.2 = .symbol .pipe) := by decide +kernel
  have part : (longest ('|' :: w) ([], .error .unrecognizedToken) signs).1 <+: '|' :: w :=
    longest_starts _ (List.nil_prefix)
  obtain rfl := Option.some.inj token
  rcases longest_mem ('|' :: w) signs ([], .error .unrecognizedToken) with eq | mem
  · rw [eq] at text
    cases text
  · obtain ⟨ne, bar⟩ := table _ mem
    have whole := part.eq_of_length (by
      have := List.length_pos_iff.2 ne
      simp only [Taken.token] at more
      simp
      omega)
    exact bar (by rw [whole]; rfl) (text.trans whole.symm)

/-- A doc comment that reads back is on one line. -/
theorem Token.Reads.newline {line : String} (h : (Token.doc line).Reads) : '\n' ∉ line.toList := by
  obtain ⟨c, w, text, more, -⟩ := h
  by_cases empty : line.isEmpty
  · rw [String.isEmpty_iff.1 empty]
    simp
  · have slashes : '/' :: '/' :: '/' :: ' ' :: line.toList = c :: w := (if_neg empty).symm.trans text
    obtain ⟨rfl, rfl⟩ := List.cons.inj slashes
    rw [first_slash] at more
    have length : 2 + ((' ' :: line.toList).takeWhile (· != '\n')).length =
      line.toList.length + 3 := more
    have whole : (' ' :: line.toList).takeWhile (· != '\n') = ' ' :: line.toList :=
      (List.takeWhile_prefix _).eq_of_length (by rw [List.length_cons]; omega)
    intro newline
    have := List.takeWhile_eq_self_iff.1 whole '\n' (List.mem_cons_of_mem _ newline)
    cases this

/-- Every token of a text that is not broken reads back. -/
theorem Lexeme.reads {place : Place} {cs : List Char} {x : Lexeme} (hx : x ∈ lexemesFrom place cs)
    (clean : ∀ reason, x.token ≠ .error reason) : x.token.Reads := by
  induction cs using Scan.induction generalizing place with
  | nil => simp at hx
  | cons c cs ih =>
      rw [lexemesFrom_cons] at hx
      rcases List.mem_append.1 hx with hx | hx
      · obtain ⟨token, found, rfl⟩ := Option.map_eq_some_iff.1 (Option.mem_toList.1 hx)
        exact Scan.reads found clean
      · exact ih hx

namespace Layout

theorem Fits.isChain {l : Layout} (h : l.Fits) : List.IsChain (Piece.joins · ·) l :=
  (List.isChain_append.1 (List.IsChain.tail h)).1

theorem text_cons (p : Piece) (l : Layout) : text (p :: l) = p.text ++ text l :=
  List.flatMap_cons

@[simp] theorem text_gap (l : Layout) : text (.gap :: l) = ' ' :: text l := text_cons ..

@[simp] theorem text_line (l : Layout) : text (.line :: l) = '\n' :: text l := text_cons ..

@[simp] theorem text_token (t : Token) (l : Layout) : text (.token t :: l) = t.text ++ text l :=
  text_cons ..

/-- A piece begins with a character, and with a bar only if it is one. -/
theorem text_piece {q : Piece} (reads : ∀ t, q.token? = some t → t.Reads) :
    ∃ d ds, q.text = d :: ds ∧ (d = '|' → q = .sign .pipe) := by
  cases q with
  | token t =>
      obtain ⟨c, w, text, -⟩ := reads t rfl
      refine ⟨c, w, text, ?_⟩
      rintro rfl
      exact congrArg Piece.token ((reads t rfl).bar text)
  | gap => exact ⟨_, _, rfl, by decide⟩
  | line => exact ⟨_, _, rfl, by decide⟩
  | placeholder => exact ⟨_, _, rfl, by decide⟩

/-- What stands for a broken part is passed over. -/
theorem lexemesFrom_placeholder (place : Place) (cs : List Char) :
    lexemesFrom place (Piece.placeholder.text ++ cs) =
      lexemesFrom (place.after Piece.placeholder.text) cs := by
  have inside : throughCommentEnd (" error */".toList ++ cs) = some 9 :=
    throughCommentEnd_append (by decide +kernel) cs
  have comment : first '/' ('*' :: (" error */".toList ++ cs)) = .blank 10 := by
    rw [first_slash, slash, inside]
  have text : Piece.placeholder.text ++ cs = '/' :: '*' :: (" error */".toList ++ cs) := rfl
  rw [text, lexemesFrom_cons, comment]
  rfl

/-- The text of a layout has the tokens of the layout, and none of them gives up a point. -/
theorem map_lexemes {l : Layout} (apart : List.IsChain (Piece.joins · ·) l)
    (reads : ∀ t ∈ l.tokens, t.Reads) (place : Place) :
    (lexemesFrom place l.text).map (fun x => (x.token, x.beforeMember)) = l.tokens.map (·, false) := by
  induction l generalizing place with
  | nil => rw [show text [] = [] from rfl, lexemesFrom_nil]; rfl
  | cons p l ih =>
      have reads' : ∀ t ∈ tokens l, t.Reads := fun t ht => reads t (by
        cases p <;> first | exact ht | exact List.mem_cons_of_mem _ ht)
      have rest := ih apart.tail reads'
      cases p with
      | gap =>
          rw [text_gap, lexemesFrom_blank (show isBlank ' ' from rfl)]
          exact rest _
      | line =>
          rw [text_line, lexemesFrom_blank (show isBlank '\n' from rfl)]
          exact rest _
      | placeholder =>
          rw [text_cons, lexemesFrom_placeholder]
          exact rest _
      | token t =>
          obtain ⟨c, w, text, more, token⟩ := reads t List.mem_cons_self
          have same : first c (w ++ Layout.text l) = first c w := by
            cases l with
            | nil => rw [show Layout.text [] = [] from rfl, List.append_nil]
            | cons q l =>
                obtain ⟨d, ds, hq, bar⟩ := text_piece (q := q) fun t' ht' => reads' t' (by
                  cases q <;> cases ht'
                  exact List.mem_cons_self)
                rw [text_cons, hq, List.cons_append]
                exact Token.Reads.apart text token (List.isChain_cons_cons.1 apart).1 hq bar _
          rw [text_token, text, List.cons_append, lexemesFrom_cons, same, more,
            List.drop_left, List.map_append, rest, lexeme?, token, whole_of_more more]
          rfl

theorem tokens_lexemes {l : Layout} (apart : List.IsChain (Piece.joins · ·) l)
    (reads : ∀ t ∈ l.tokens, t.Reads) (place : Place) :
    (lexemesFrom place l.text).map Lexeme.token = l.tokens := by
  have tokens := congrArg (List.map Prod.fst) (map_lexemes apart reads place)
  rwa [List.map_map, List.map_map, show Prod.fst ∘ (·, false) = id from rfl, List.map_id] at tokens

/-- Nothing in the text of a layout gives up a point. -/
theorem beforeMember_lexemes {l : Layout} (apart : List.IsChain (Piece.joins · ·) l)
    (reads : ∀ t ∈ l.tokens, t.Reads) {place : Place} {x : Lexeme} (hx : x ∈ lexemesFrom place l.text) :
    x.beforeMember = false := by
  have mem := List.mem_map_of_mem (f := fun x => (x.token, x.beforeMember)) hx
  rw [map_lexemes apart reads] at mem
  obtain ⟨t, -, eq⟩ := List.mem_map.1 mem
  exact (congrArg Prod.snd eq).symm

end Layout

end Mim
