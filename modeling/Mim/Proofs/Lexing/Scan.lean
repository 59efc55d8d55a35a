import Mim.Lexeme
import Mim.Proofs.Lexing.Shapes

/-! # One lexeme at a time

What is taken at the start of a text does not change when the text is cut behind it, nor
when the text goes on with a newline.
-/

namespace Mim

open Shape

namespace Shape

theorem stringBody_quote (cs : List Char) : stringBody ('"' :: cs) = 0 := by
  rw [stringBody]
  · rfl
  · simp

theorem stringBody_plain {c : Char} (quote : c ≠ '"') (escape : c ≠ '\\') (cs : List Char) :
    stringBody (c :: cs) = 1 + stringBody cs := by
  rw [stringBody]
  · simp [quote, escape]
  · exact fun _ _ h => absurd h escape

/-- A string that is closed stays as it is. -/
theorem stringBody_append {cs : List Char} (h : (cs.drop (stringBody cs)).head? = some '"')
    (ds : List Char) : stringBody (cs ++ ds) = stringBody cs := by
  fun_induction stringBody cs with
  | case1 c cs ih =>
      rw [List.cons_append, List.cons_append, stringBody, ih]
      simpa [Nat.add_comm 2] using h
  | case2 c cs no stop =>
      obtain rfl : c = '"' := by simpa using h
      exact stringBody_quote _
  | case3 c cs no other ih =>
      simp only [Bool.or_eq_true, beq_iff_eq, not_or] at other
      rw [List.cons_append, stringBody_plain other.1 other.2, ih]
      simpa [Nat.add_comm 1] using h
  | case4 => cases h

theorem stringBody_le (cs : List Char) : stringBody cs ≤ cs.length := by
  fun_induction stringBody cs <;> simp_all <;> omega

/-- A string whose end is still there is closed where it was. -/
theorem stringBody_cut {cs : List Char} {n : Nat} (h : stringBody cs < n) :
    stringBody (cs.take n) = stringBody cs := by
  fun_induction stringBody cs generalizing n with
  | case1 c cs ih =>
      obtain ⟨n, rfl⟩ : ∃ k, n = k + 2 := ⟨n - 2, by omega⟩
      rw [List.take_succ_cons, List.take_succ_cons, stringBody, ih (by omega)]
  | case2 c cs no stop =>
      obtain ⟨n, rfl⟩ : ∃ k, n = k + 1 := ⟨n - 1, by omega⟩
      rw [List.take_succ_cons, stringBody, if_pos stop]
      intro e es hc hes
      cases cs with
      | nil => simp at hes
      | cons e cs => exact no e cs hc rfl
  | case3 c cs no other ih =>
      obtain ⟨n, rfl⟩ : ∃ k, n = k + 1 := ⟨n - 1, by omega⟩
      simp only [Bool.or_eq_true, beq_iff_eq, not_or] at other
      rw [List.take_succ_cons, stringBody_plain other.1 other.2, ih (by omega)]
  | case4 => rw [List.take_nil, stringBody]

/-- A block comment that is closed stays as it is. -/
theorem throughCommentEnd_append {cs : List Char} {n : Nat} (h : throughCommentEnd cs = some n)
    (ds : List Char) : throughCommentEnd (cs ++ ds) = some n := by
  fun_induction throughCommentEnd cs generalizing n with
  | case1 => simpa [throughCommentEnd] using h
  | case2 c cs no ih =>
      obtain ⟨k, hk, rfl⟩ := Option.map_eq_some_iff.1 h
      rw [List.cons_append, throughCommentEnd, ih hk]
      · rfl
      · intro es hc hes
        cases cs with
        | nil => cases hk
        | cons e cs =>
            obtain ⟨rfl, rfl⟩ := List.cons.inj hes
            exact no _ hc rfl
  | case3 => cases h

theorem throughCommentEnd_cut {cs : List Char} {k n : Nat} (h : throughCommentEnd cs = some k)
    (hn : k ≤ n) : throughCommentEnd (cs.take n) = some k := by
  fun_induction throughCommentEnd cs generalizing k n with
  | case1 =>
      obtain rfl := Option.some.inj h
      obtain ⟨n, rfl⟩ : ∃ k, n = k + 2 := ⟨n - 2, by omega⟩
      rfl
  | case2 c cs no ih =>
      obtain ⟨k, hk, rfl⟩ := Option.map_eq_some_iff.1 h
      obtain ⟨n, rfl⟩ : ∃ k, n = k + 1 := ⟨n - 1, by omega⟩
      rw [List.take_succ_cons, throughCommentEnd, ih hk (by omega)]
      · rfl
      · intro es hc hes
        cases cs with
        | nil => cases hk
        | cons e cs =>
            cases n with
            | zero => cases hes
            | succ n =>
                rw [List.take_succ_cons] at hes
                exact no _ hc (by rw [(List.cons.inj hes).1])
  | case3 => cases h

end Shape

/-- What is taken is no broken text. -/
def Taken.IsClean (x : Taken) : Prop := ∀ reason, x.token? ≠ some (.error reason)

theorem Taken.isClean_of_token {x : Taken} {t : Token} (h : x.token? = some t)
    (clean : ∀ reason, t ≠ .error reason) : x.IsClean :=
  fun reason broken => clean reason (Option.some.inj (h.symm.trans broken))

theorem Taken.IsClean.absurd {p : Prop} {more : Nat} {reason : LexError}
    (h : (Taken.token more (.error reason)).IsClean) : p := (h reason rfl).elim

namespace Scan

variable {c d : Char} {cs ds : List Char}

/-- The longest of some signs that a text starts with. -/
def longest (text : List Char) (best : List Char × Token) (signs : List (List Char × Token)) :
    List Char × Token :=
  signs.foldl (fun best s =>
    if best.1.length < s.1.length && s.1.isPrefixOf text then s else best) best

theorem sign_eq (text : List Char) : sign text =
    .token ((longest text ([], .error .unrecognizedToken) Token.signs).1.length - 1)
      (longest text ([], .error .unrecognizedToken) Token.signs).2 := rfl

theorem longest_congr {text text' : List Char} {signs : List (List Char × Token)}
    (h : ∀ s ∈ signs, s.1.isPrefixOf text = s.1.isPrefixOf text') (best : List Char × Token) :
    longest text best signs = longest text' best signs := by
  induction signs generalizing best with
  | nil => rfl
  | cons s signs ih =>
      have rest := ih fun s hs => h s (List.mem_cons_of_mem _ hs)
      simp only [longest, List.foldl_cons] at rest ⊢
      rw [h s List.mem_cons_self, rest]

/-- No sign that the text starts with is longer. -/
theorem length_le_longest {text : List Char} {signs : List (List Char × Token)}
    (best : List Char × Token) : best.1.length ≤ (longest text best signs).1.length ∧
      ∀ s ∈ signs, s.1.isPrefixOf text → s.1.length ≤ (longest text best signs).1.length := by
  induction signs generalizing best with
  | nil => exact ⟨Nat.le_refl _, by simp⟩
  | cons s signs ih =>
      simp only [longest, List.foldl_cons] at ih ⊢
      obtain ⟨grows, rest⟩ := ih (if best.1.length < s.1.length && s.1.isPrefixOf text then s else best)
      split at grows
      · next longer =>
          simp only [Bool.and_eq_true, decide_eq_true_eq] at longer
          rw [if_pos (by simpa using longer)] at rest ⊢
          refine ⟨by omega, List.forall_mem_cons.2 ⟨fun _ => grows, rest⟩⟩
      · next shorter =>
          rw [if_neg shorter] at rest ⊢
          refine ⟨grows, List.forall_mem_cons.2 ⟨fun starts => ?_, rest⟩⟩
          simp only [starts, Bool.and_true, decide_eq_true_eq, Nat.not_lt] at shorter
          omega

/-- A sign is taken again where the text is cut behind it. -/
theorem sign_cut {text : List Char} {n : Nat} (hn : (sign text).more ≤ n) :
    sign (text.take (n + 1)) = sign text := by
  rw [sign_eq, sign_eq, longest_congr]
  intro s hs
  rw [Bool.eq_iff_iff, List.isPrefixOf_iff_prefix, List.isPrefixOf_iff_prefix]
  refine ⟨fun h => h.trans (List.take_prefix _ _), fun h => ?_⟩
  have le := (@length_le_longest text _ ([], .error .unrecognizedToken)).2 s hs
    (List.isPrefixOf_iff_prefix.2 h)
  rw [sign_eq] at hn
  change _ - 1 ≤ n at hn
  rw [List.prefix_iff_eq_take.1 h]
  exact List.take_prefix_take_left (by omega)

/-- No sign has a newline. -/
theorem sign_newline (text ds : List Char) : sign (text ++ '\n' :: ds) = sign text := by
  have plain : ∀ s ∈ Token.signs, '\n' ∉ s.1 := by decide +kernel
  rw [sign_eq, sign_eq, longest_congr]
  intro s hs
  rw [Bool.eq_iff_iff, List.isPrefixOf_iff_prefix, List.isPrefixOf_iff_prefix]
  refine ⟨fun h => ?_, fun h => h.trans (List.prefix_append _ _)⟩
  rcases Nat.lt_or_ge text.length s.1.length with long | short
  · refine absurd ?_ (plain s hs)
    have whole : text ++ ['\n'] <+: s.1 := by
      refine List.prefix_of_prefix_length_le ?_ h (by rw [List.length_append]; exact long)
      exact ⟨ds, by simp⟩
    exact whole.subset (by simp)
  · exact List.prefix_of_prefix_length_le h (List.prefix_append _ _) short

theorem percent_append (hd : isJoint d = false) (cs ds : List Char) :
    percent (cs ++ d :: ds) = percent cs := by
  have word_stop := munch_word.stop (show isWordChar d = false by
    simp only [isJoint, Bool.or_eq_false_iff] at hd
    exact hd.1.1.1)
  have point : d ≠ '.' := by
    rintro rfl
    cases hd
  have le := munch_word.length
  unfold percent
  simp only [word_stop, List.drop_append_of_le_length (le cs), List.take_append_of_le_length (le cs)]
  cases cs.drop (word cs) with
  | nil => simp [point]
  | cons e rest =>
      by_cases he : e = '.'
      · subst he
        simp only [List.cons_append, word_stop, List.drop_append_of_le_length (le rest),
          List.take_append_of_le_length (le rest)]
        cases rest.drop (word rest) with
        | nil => simp [point]
        | cons e rest =>
            by_cases he : e = '.'
            · subst he
              simp only [List.cons_append, word_stop, List.take_append_of_le_length (le rest)]
            · simp [he]
      · simp [he]

theorem percent_cut {n : Nat} (clean : (percent cs).IsClean) (hn : (percent cs).more ≤ n) :
    percent (cs.take n) = percent cs := by
  have cut := fun (cs : List Char) n => @Munch.cut _ _ cs munch_word n
  revert clean hn
  simp only [percent]
  split
  · next none =>
      intro _ _
      rw [cut cs n (by rw [beq_iff_eq.1 none]; exact Nat.zero_le _), if_pos none]
  · next some =>
      split
      · next rest hrest =>
          split
          · exact fun clean => clean.absurd
          · next some₂ =>
              intro _ hn
              have long : word cs + 1 + word rest ≤ n := by
                split at hn
                · split at hn <;> simp [Taken.token] at hn <;> omega
                · exact hn
              obtain ⟨k, rfl⟩ : ∃ k, n = word cs + (k + 1) := ⟨n - word cs - 1, by omega⟩
              rw [cut cs _ (by omega), if_neg some]
              simp only [List.drop_take, Nat.add_sub_cancel_left, hrest, List.take_succ_cons,
                List.take_take]
              rw [cut rest _ (by omega), if_neg some₂, Nat.min_eq_left (by omega),
                Nat.min_eq_left (by omega)]
              obtain ⟨k, rfl⟩ : ∃ j, k = word rest + j := ⟨k - word rest, by omega⟩
              rw [Nat.add_sub_cancel_left]
              cases h : rest.drop (word rest) with
              | nil => simp
              | cons e rest₂ =>
                  rw [h] at hn
                  by_cases he : e = '.'
                  · subst he
                    by_cases none : word rest₂ = 0
                    · cases k with
                      | zero => simp [none]
                      | succ k => simp [cut rest₂ k (by omega), none]
                    · have far : word cs + 1 + word rest + 1 + word rest₂ ≤
                          word cs + (word rest + k + 1) := by
                        simpa [none, Taken.token] using hn
                      obtain ⟨k, rfl⟩ : ∃ j, k = j + 1 := ⟨k - 1, by omega⟩
                      simp only [List.take_succ_cons, cut rest₂ k (by omega), List.take_take,
                        Nat.min_eq_left (show word rest₂ ≤ k by omega)]
                  · cases k <;> simp [he]
      · exact fun clean => clean.absurd

/-- A string that is closed. -/
theorem string_append (clean : (string cs).IsClean) (ds : List Char) :
    string (cs ++ ds) = string cs := by
  unfold string at clean ⊢
  by_cases closed : (cs.drop (stringBody cs)).head? = some '"'
  · have le := stringBody_le cs
    simp only [stringBody_append closed, List.drop_append_of_le_length le,
      List.take_append_of_le_length le, List.head?_append, closed, Option.some_or]
  · rw [if_neg (by simpa using closed)] at clean
    exact clean.absurd

theorem string_cut {n : Nat} (clean : (string cs).IsClean) (hn : (string cs).more ≤ n) :
    string (cs.take n) = string cs := by
  unfold string at clean hn ⊢
  by_cases closed : (cs.drop (stringBody cs)).head? = some '"'
  · rw [if_pos (by simpa using closed)] at hn
    have lt : stringBody cs < n := hn
    have apart : n - stringBody cs ≠ 0 := Nat.sub_ne_zero_of_lt lt
    simp only [stringBody_cut lt, List.drop_take, List.take_take, Nat.min_eq_left (Nat.le_of_lt lt),
      List.head?_take, apart, if_false]
  · rw [if_neg (by simpa using closed)] at clean
    exact clean.absurd

theorem char_append (clean : (char cs).IsClean) (ds : List Char) : char (cs ++ ds) = char cs := by
  unfold char at clean ⊢
  split at clean
  · rfl
  · next c rest no =>
      split at clean
      · exact clean.absurd
      · next plain =>
          simp only [Bool.or_eq_true, beq_iff_eq, not_or] at plain
          rw [if_neg (by simp [plain])]
          simp [plain]
  · exact clean.absurd

theorem char_cut {n : Nat} (clean : (char cs).IsClean) (hn : (char cs).more ≤ n) :
    char (cs.take n) = char cs := by
  unfold char at clean hn
  split at clean
  · next c rest =>
      split at clean
      · exact clean.absurd
      · next plain =>
          have far : 3 ≤ n := by
            change (if c == '\n' then Taken.unrecognized else _ : Taken).more ≤ n at hn
            rwa [if_neg plain] at hn
          obtain ⟨n, rfl⟩ : ∃ k, n = k + 3 := ⟨n - 3, by omega⟩
          rfl
  · next c rest no =>
      split at clean
      · exact clean.absurd
      · next plain =>
          simp only [Bool.or_eq_true, beq_iff_eq, not_or] at plain
          have far : 2 ≤ n := by simpa [plain, Taken.token] using hn
          obtain ⟨n, rfl⟩ : ∃ k, n = k + 2 := ⟨n - 2, by omega⟩
          simp [char, plain]
  · exact clean.absurd

theorem takeWhile_newline (cs ds : List Char) :
    (cs ++ '\n' :: ds).takeWhile (· != '\n') = cs.takeWhile (· != '\n') := by
  induction cs with
  | nil => rfl
  | cons c cs ih => rw [List.cons_append, List.takeWhile_cons, List.takeWhile_cons, ih]

theorem takeWhile_cut {p : Char → Bool} {n : Nat} (hn : run p cs ≤ n) :
    (cs.take n).takeWhile p = cs.takeWhile p := by
  rw [List.prefix_iff_eq_take.1 (List.takeWhile_prefix (l := cs) p),
    List.prefix_iff_eq_take.1 (List.takeWhile_prefix (l := cs.take n) p)]
  change (cs.take n).take (run p (cs.take n)) = cs.take (run p cs)
  rw [Munch.runs.cut n hn, List.take_take, Nat.min_eq_left hn]

/-- A comment that is not in the tree. -/
theorem slash_line (no : ∀ ds, cs ≠ '/' :: ds) :
    slash ('/' :: cs) = .blank (1 + run (· != '\n') cs) := by
  unfold slash
  split
  · next h => exact absurd (List.cons.inj h).2 (no _)
  · next h => rw [(List.cons.inj h).2]
  · next h => cases h
  · next _ h _ => exact absurd rfl (h cs)

theorem slash_newline (clean : (slash cs).IsClean) (ds : List Char) :
    slash (cs ++ '\n' :: ds) = slash cs := by
  unfold slash at clean
  split at clean
  · next cs => simp only [List.cons_append, slash, takeWhile_newline]
  · next cs no =>
      rw [List.cons_append, slash_line no, slash_line, run_append_cons rfl]
      intro es h
      cases cs with
      | nil => cases h
      | cons c cs => exact no cs (by rw [(List.cons.inj h).1])
  · next cs =>
      split at clean
      · next more h => simp only [List.cons_append, slash, throughCommentEnd_append h, h]
      · exact clean.absurd
  · exact clean.absurd

theorem slash_cut {n : Nat} (clean : (slash cs).IsClean) (hn : (slash cs).more ≤ n) :
    slash (cs.take n) = slash cs := by
  unfold slash at clean
  split at clean
  · next cs =>
      have far : 2 + run (· != '\n') cs ≤ n := hn
      obtain ⟨n, rfl⟩ : ∃ k, n = k + 2 := ⟨n - 2, by omega⟩
      simp only [List.take_succ_cons, slash, takeWhile_cut (show run (· != '\n') cs ≤ n by omega)]
  · next cs no =>
      rw [slash_line no] at hn ⊢
      have far : 1 + run (· != '\n') cs ≤ n := hn
      obtain ⟨n, rfl⟩ : ∃ k, n = k + 1 := ⟨n - 1, by omega⟩
      rw [List.take_succ_cons, slash_line, Munch.runs.cut n (by omega)]
      intro es h
      cases cs with
      | nil => simp at h
      | cons c cs =>
          cases n with
          | zero => cases h
          | succ n => exact no cs (by rw [(List.cons.inj h).1])
  · next cs =>
      split at clean
      · next more h =>
          have far : 1 + more ≤ n := by
            simp only [slash, h] at hn
            exact hn
          obtain ⟨n, rfl⟩ : ∃ k, n = k + 1 := ⟨n - 1, by omega⟩
          simp only [List.take_succ_cons, slash, throughCommentEnd_cut h (show more ≤ n by omega), h]
      · exact clean.absurd
  · exact clean.absurd

section Numbers

variable {text : List Char} {length : Nat} {isReal : Bool}

theorem number_append (hd : isJoint d = false) (h : numeral text = (length, isReal))
    (ds : List Char) : number (text ++ d :: ds) length isReal = number text length isReal := by
  have le : length ≤ text.length := by
    have within := Nat.le_trans (numeral_within text) (run_le_length _ _)
    rwa [h] at within
  have word_stop := munch_word.stop (show isWordChar d = false by
    simp only [isJoint, Bool.or_eq_false_iff] at hd
    exact hd.1.1.1)
  simp only [number, List.take_append_of_le_length le, List.drop_append_of_le_length le, word_stop]

theorem word_eq_zero : word cs = 0 ↔ ∀ c ∈ cs.head?, isWordStart c = false := by
  cases cs with
  | nil => simp [word]
  | cons c cs => cases h : isWordStart c <;> simp [word, h]

theorem two_le_of_numeral (h : numeral text = (length, true)) : 2 ≤ length := by
  simp only [numeral] at h
  split at h
  · obtain ⟨rfl, -⟩ := Prod.mk.inj h
    have ne_one := real_ne_one (text.drop (Shape.sign text))
    omega
  · split at h <;> cases (Prod.mk.inj h).2

theorem number_real {value : Binary64} (h : Numeral.float? (text.take length) = some value) :
    number text length true =
      if (text.take length).getLast? == some '.' && word (text.drop length) != 0 then
        ⟨length - 2, some (intToken (text.take length).dropLast), true⟩
      else .token (length - 1) (.literal (.float value)) := by
  simp only [number, h]
  rfl

/-- The last character of what is taken is in the text. -/
theorem getElem?_of_getLast?_take {d : Char} (le : length ≤ text.length) (filled : 0 < length)
    (h : (text.take length).getLast? = some d) : text[length - 1]? = some d := by
  rw [← h, List.getLast?_eq_getElem?, List.length_take_of_le le,
    List.getElem?_take_of_lt (Nat.sub_lt filled Nat.one_pos)]

/-- A numeral that gives up its point is a number with it, and a name follows. -/
theorem number_member (h : numeral text = (length, isReal))
    (member : (number text length isReal).beforeMember) :
    2 ≤ length ∧ isReal = true ∧ (∃ value, Numeral.float? (text.take length) = some value) ∧
      (∃ ds, text.drop (length - 1) = '.' :: ds ∧ word ds ≠ 0) ∧
      number text length isReal = ⟨length - 2, some (intToken (text.take (length - 1))), true⟩ := by
  cases isReal with
  | false => cases member
  | true =>
      have two := two_le_of_numeral h
      have le := Nat.le_trans (numeral_within text) (run_le_length _ _)
      rw [h] at le
      cases hvalue : Numeral.float? (text.take length) with
      | none =>
          simp only [number, hvalue] at member
          cases member
      | some value =>
          rw [number_real hvalue] at member ⊢
          split at member
          · next ends =>
              rw [if_pos ends]
              simp only [Bool.and_eq_true, beq_iff_eq, bne_iff_ne] at ends
              obtain ⟨lt, last⟩ := List.getElem?_eq_some_iff.1
                (getElem?_of_getLast?_take le (by omega) ends.1)
              have split := List.drop_eq_getElem_cons lt
              rw [last, Nat.sub_add_cancel (Nat.le_of_succ_le two)] at split
              have before : (text.take length).dropLast = text.take (length - 1) := by
                rw [List.dropLast_eq_take, List.take_take, List.length_take_of_le le,
                  Nat.min_eq_left (Nat.sub_le _ _)]
              exact ⟨two, rfl, ⟨value, rfl⟩, ⟨_, split, ends.2⟩, by rw [before]⟩
          · cases member

/-- A numeral of a text that is cut behind it, and not behind a point that it gave up. -/
theorem number_cut {n : Nat} (h : numeral text = (length, isReal))
    (clean : (number text length isReal).IsClean) (hn : (number text length isReal).more ≤ n)
    (apart : (number text length isReal).beforeMember → n ≠ (number text length isReal).more + 1) :
    ∃ length' isReal', numeral (text.take (n + 1)) = (length', isReal') ∧
      (length ≠ 0 → length' ≠ 0) ∧
      (number (text.take (n + 1)) length' isReal').more = (number text length isReal).more ∧
      (number (text.take (n + 1)) length' isReal').token? = (number text length isReal).token? := by
  have again : length ≤ n + 1 → numeral (text.take (n + 1)) = (length, isReal) ∧
      (text.take (n + 1)).take length = text.take length := by
    intro le
    have cut := @numeral_cut text (n + 1) (by rw [h]; exact le)
    exact ⟨cut.trans h, by rw [List.take_take, Nat.min_eq_left le]⟩
  cases isReal with
  | false =>
      have far : length - 1 ≤ n := hn
      obtain ⟨same, lexeme⟩ := again (by omega)
      refine ⟨length, false, same, id, rfl, ?_⟩
      change some (intToken ((text.take (n + 1)).take length)) = _
      rw [lexeme]
      rfl
  | true =>
      have two := two_le_of_numeral h
      have le : length ≤ text.length := by
        have within := Nat.le_trans (numeral_within text) (run_le_length _ _)
        rwa [h] at within
      cases hvalue : Numeral.float? (text.take length) with
      | none =>
          simp only [number, hvalue] at clean
          exact clean.absurd
      | some value =>
          have ahead : ∀ k, (k ≠ 0 ∨ word (text.drop length) = 0) →
              (word ((text.drop length).take k) != 0) = (word (text.drop length) != 0) := by
            intro k hk
            have iff : word ((text.drop length).take k) = 0 ↔ word (text.drop length) = 0 := by
              rw [word_eq_zero, word_eq_zero, List.head?_take]
              by_cases zero : k = 0
              · rw [if_pos zero]
                exact ⟨fun _ => word_eq_zero.1 (hk.resolve_left fun h => h zero), fun _ => by simp⟩
              · rw [if_neg zero]
            rw [Bool.eq_iff_iff]
            simp [iff]
          have whole := number_real hvalue
          split at whole
          · next member =>
              rw [whole] at hn apart ⊢
              have far : length - 2 ≤ n := hn
              have apart : n ≠ length - 2 + 1 := apart rfl
              simp only [Bool.and_eq_true, beq_iff_eq, bne_iff_ne, ne_eq] at member
              by_cases near : n = length - 2
              · have point := numeral_point h (getElem?_of_getLast?_take le (by omega) member.1)
                rw [show n + 1 = length - 1 by omega]
                refine ⟨length - 1, false, point, by omega, show length - 1 - 1 = length - 2 by omega, ?_⟩
                change some (intToken ((text.take (length - 1)).take (length - 1))) = _
                rw [List.take_take, Nat.min_self, List.dropLast_eq_take, List.take_take,
                  List.length_take_of_le le, Nat.min_eq_left (Nat.sub_le _ _)]
              · obtain ⟨same, lexeme⟩ := again (by omega)
                refine ⟨length, true, same, id, ?_⟩
                rw [number_real (lexeme ▸ hvalue), lexeme, List.drop_take,
                  ahead (n + 1 - length) (.inl (by omega)), if_pos (by simpa using member)]
                exact ⟨rfl, rfl⟩
          · next plain =>
              rw [whole] at hn ⊢
              have far : length - 1 ≤ n := hn
              obtain ⟨same, lexeme⟩ := again (by omega)
              refine ⟨length, true, same, id, ?_⟩
              rw [number_real (lexeme ▸ hvalue), lexeme, List.drop_take, if_neg]
              · exact ⟨rfl, rfl⟩
              · intro member
                simp only [Bool.and_eq_true, beq_iff_eq] at member plain
                refine plain ⟨member.1, ?_⟩
                rw [← member.2]
                refine (ahead _ (Classical.or_iff_not_imp_left.2 fun zero => ?_)).symm
                have none := member.2
                rw [Classical.not_not.1 zero] at none
                simp [word] at none

end Numbers

theorem first_blank (h : isBlank c) : first c cs = .blank (run isBlank cs) := by
  rw [first, if_pos h]

theorem isBlank_of_isWordStart (h : isWordStart c) : isBlank c = false := by
  cases blank : isBlank c with
  | false => rfl
  | true =>
      simp only [isBlank, Bool.or_eq_true, beq_iff_eq] at blank
      rcases blank with (((rfl | rfl) | rfl) | rfl) | rfl <;> cases h

theorem first_word (h : isWordStart c) : first c cs =
    .token (run isWordChar cs) (Token.ofWord (String.ofList (c :: cs.take (run isWordChar cs)))) := by
  rw [first, if_neg (by simp [isBlank_of_isWordStart h]), if_pos h]

theorem first_percent : first '%' cs = percent cs := rfl

theorem first_string : first '"' cs = string cs := rfl

theorem first_char : first '\'' cs = char cs := rfl

theorem first_slash : first '/' cs = slash cs := rfl

/-- A character that a numeral or a sign begins with, if anything does. -/
def isNumeralOrSign (c : Char) : Bool :=
  !isBlank c && !isWordStart c && c != '%' && c != '"' && c != '\'' && c != '/'

theorem first_sign (h : isNumeralOrSign c) : first c cs =
    if (numeral (c :: cs)).1 != 0 then number (c :: cs) (numeral (c :: cs)).1 (numeral (c :: cs)).2
    else sign (c :: cs) := by
  simp only [isNumeralOrSign, Bool.and_eq_true, Bool.not_eq_true', bne_iff_ne, ne_eq] at h
  simp [first, h]

/-- What a lexeme may begin with. -/
theorem lead_cases (c : Char) : isBlank c ∨ isWordStart c ∨ c = '%' ∨ c = '"' ∨ c = '\'' ∨ c = '/' ∨
    isNumeralOrSign c := by
  simp only [isNumeralOrSign, Bool.and_eq_true, Bool.not_eq_true', bne_iff_ne, ne_eq]
  cases isBlank c <;> cases isWordStart c <;> simp only [true_or, or_true, Bool.false_eq_true, false_or]
  by_cases h₁ : c = '%' <;> by_cases h₂ : c = '"' <;> by_cases h₃ : c = '\'' <;>
    by_cases h₄ : c = '/' <;> simp [h₁, h₂, h₃, h₄]

/-- A sign that is taken is there. -/
theorem longest_starts {text : List Char} {signs : List (List Char × Token)}
    (best : List Char × Token) (h : best.1 <+: text) : (longest text best signs).1 <+: text := by
  induction signs generalizing best with
  | nil => exact h
  | cons s signs ih =>
      simp only [longest, List.foldl_cons] at ih ⊢
      refine ih _ ?_
      split
      · next longer =>
          simp only [Bool.and_eq_true, List.isPrefixOf_iff_prefix] at longer
          exact longer.2
      · exact h

theorem throughCommentEnd_le {n : Nat} (h : throughCommentEnd cs = some n) : n ≤ cs.length := by
  fun_induction throughCommentEnd cs generalizing n with
  | case1 =>
      obtain rfl := Option.some.inj h
      simp
  | case2 c cs no ih =>
      obtain ⟨k, hk, rfl⟩ := Option.map_eq_some_iff.1 h
      exact Nat.succ_le_succ (ih hk)
  | case3 => cases h

theorem percent_le (cs : List Char) : (percent cs).more ≤ cs.length := by
  have le := munch_word.length
  have rest : ∀ {n : Nat} {cs ds : List Char}, cs.drop n = '.' :: ds → n + 1 + ds.length ≤ cs.length := by
    intro n cs ds h
    have length := congrArg List.length h
    rw [List.length_drop, List.length_cons] at length
    omega
  have := le cs
  simp only [percent]
  split
  · exact Nat.zero_le _
  · split
    · next ds hds =>
        have := rest hds
        have := le ds
        split
        · exact le cs
        · split
          · next es hes =>
              have := rest hes
              have := le es
              split <;> simp only [Taken.token] <;> omega
          · simp only [Taken.token]
            omega
    · exact le cs

theorem string_le (cs : List Char) : (string cs).more ≤ cs.length := by
  have le := stringBody_le cs
  simp only [string]
  split
  · next closed =>
      have filled : cs.drop (stringBody cs) ≠ [] := fun nil => by rw [nil] at closed; cases closed
      have := mt List.drop_eq_nil_iff.2 filled
      simp only [Taken.token]
      omega
  · exact le

theorem char_le (cs : List Char) : (char cs).more ≤ cs.length := by
  unfold char
  split
  · split <;> simp [Taken.token, Taken.unrecognized]
  · split <;> simp [Taken.token, Taken.unrecognized]
  · exact Nat.zero_le _

theorem slash_le (cs : List Char) : (slash cs).more ≤ cs.length := by
  unfold slash
  split
  · next cs =>
      have := (List.takeWhile_sublist (l := cs) (· != '\n')).length_le
      simp only [Taken.token, List.length_cons]
      omega
  · next cs _ =>
      have := run_le_length (· != '\n') cs
      simp only [Taken.blank, List.length_cons]
      omega
  · next cs =>
      split
      · next h =>
          have := throughCommentEnd_le h
          simp only [Taken.blank, List.length_cons]
          omega
      · simp only [Taken.token, List.length_cons]
        omega
  · exact Nat.zero_le _

/-- No more is taken than there is. -/
theorem first_le (c : Char) (cs : List Char) : (first c cs).more ≤ cs.length := by
  rcases lead_cases c with h | h | rfl | rfl | rfl | rfl | h
  · rw [first_blank h]
    exact run_le_length _ cs
  · rw [first_word h]
    exact run_le_length _ cs
  · exact percent_le cs
  · exact string_le cs
  · exact char_le cs
  · exact slash_le cs
  · have le := Nat.le_trans (numeral_within (c :: cs)) (run_le_length _ _)
    rw [List.length_cons] at le
    rw [first_sign h]
    split
    · simp only [number]
      split
      · simp only [Taken.token]
        omega
      · split
        · simp only [Taken.token]
          omega
        · split <;> simp only [Taken.token] <;> omega
    · have length := (@longest_starts (c :: cs) Token.signs
        ([], .error .unrecognizedToken) List.nil_prefix).length_le
      rw [List.length_cons] at length
      rw [sign_eq]
      simp only [Taken.token]
      omega

theorem percent_beforeMember (cs : List Char) : (percent cs).beforeMember = false := by
  simp only [percent]
  split
  · rfl
  · split
    · split
      · rfl
      · split
        · split <;> rfl
        · rfl
    · rfl

theorem string_beforeMember (cs : List Char) : (string cs).beforeMember = false := by
  simp only [string]
  split <;> rfl

theorem char_beforeMember (cs : List Char) : (char cs).beforeMember = false := by
  unfold char
  split
  · split <;> rfl
  · split <;> rfl
  · rfl

theorem slash_beforeMember (cs : List Char) : (slash cs).beforeMember = false := by
  unfold slash
  split
  · rfl
  · rfl
  · split <;> rfl
  · rfl

/-- Only a numeral gives up a point. -/
theorem first_member (h : (first c cs).beforeMember) : isNumeralOrSign c ∧ ∃ length isReal,
    numeral (c :: cs) = (length, isReal) ∧ first c cs = number (c :: cs) length isReal := by
  have none : ∀ {x : Taken} {p : Prop}, x.beforeMember = false → x.beforeMember → p := by
    intro x p no yes
    rw [no] at yes
    cases yes
  rcases lead_cases c with hc | hc | rfl | rfl | rfl | rfl | hc
  · rw [first_blank hc] at h
    exact none rfl h
  · rw [first_word hc] at h
    exact none rfl h
  · exact none (percent_beforeMember cs) h
  · exact none (string_beforeMember cs) h
  · exact none (char_beforeMember cs) h
  · exact none (slash_beforeMember cs) h
  · rw [first_sign hc] at h ⊢
    split at h
    · next some => exact ⟨hc, _, _, rfl, if_pos some⟩
    · exact none rfl h

/-- A point that is given up is still there. -/
theorem first_beforeMember (h : (first c cs).beforeMember) :
    (first c cs).token?.isSome ∧ ∃ rest, cs.drop (first c cs).more = '.' :: rest := by
  obtain ⟨-, length, isReal, numeral, taken⟩ := first_member h
  rw [taken] at h ⊢
  obtain ⟨two, -, -, ⟨ds, split, -⟩, eq⟩ := number_member numeral h
  rw [show length - 1 = length - 2 + 1 by omega, List.drop_succ_cons] at split
  rw [eq]
  exact ⟨rfl, ds, split⟩

/-- A text that is taken whole gives up no point. -/
theorem whole_of_more (h : (first c cs).more = cs.length) : (first c cs).beforeMember = false := by
  cases member : (first c cs).beforeMember with
  | false => rfl
  | true =>
      obtain ⟨-, rest, point⟩ := first_beforeMember member
      rw [h, List.drop_length] at point
      cases point

/-- What is taken does not change where a newline comes later. -/
theorem first_newline (solid : isBlank c = false) (clean : (first c cs).IsClean) (ds : List Char) :
    first c (cs ++ '\n' :: ds) = first c cs := by
  rcases lead_cases c with blank | h | rfl | rfl | rfl | rfl | h
  · rw [solid] at blank
    cases blank
  · have same : run isWordChar (cs ++ '\n' :: ds) = run isWordChar cs := run_append_cons rfl cs ds
    rw [first_word h, first_word h, same, List.take_append_of_le_length (run_le_length _ cs)]
  · exact percent_append rfl cs ds
  · exact string_append clean _
  · exact char_append clean _
  · exact slash_newline clean ds
  · have newline : isJoint '\n' = false := rfl
    have same := numeral_stop newline (c :: cs) ds
    have sign := sign_newline (c :: cs) ds
    rw [List.cons_append] at same sign
    rw [first_sign h, first_sign h, same, sign]
    generalize hn : numeral (c :: cs) = found
    obtain ⟨length, isReal⟩ := found
    have number := number_append newline hn ds
    rw [List.cons_append] at number
    rw [number]

/-- What is taken is taken again where the text is cut behind it, unless that is behind a
    point that it gave up. -/
theorem first_cut {n : Nat} (clean : (first c cs).IsClean) (hn : (first c cs).more ≤ n)
    (apart : (first c cs).beforeMember → n ≠ (first c cs).more + 1) :
    (first c (cs.take n)).more = (first c cs).more ∧
      (first c (cs.take n)).token? = (first c cs).token? := by
  have of_eq : ∀ {x y : Taken}, x = y → x.more = y.more ∧ x.token? = y.token? := by
    rintro _ _ rfl
    exact ⟨rfl, rfl⟩
  rcases lead_cases c with h | h | rfl | rfl | rfl | rfl | h
  · rw [first_blank h] at hn
    rw [first_blank h, first_blank h, Munch.runs.cut n hn]
    exact ⟨rfl, rfl⟩
  · rw [first_word h] at hn
    have far : run isWordChar cs ≤ n := hn
    rw [first_word h, first_word h, Munch.runs.cut n far, List.take_take, Nat.min_eq_left far]
    exact ⟨rfl, rfl⟩
  · exact of_eq (percent_cut clean hn)
  · exact of_eq (string_cut clean hn)
  · exact of_eq (char_cut clean hn)
  · exact of_eq (slash_cut clean hn)
  · rw [first_sign h] at clean hn apart
    rw [first_sign h, first_sign h, ← List.take_succ_cons]
    generalize hnum : numeral (c :: cs) = found at clean hn apart ⊢
    obtain ⟨length, isReal⟩ := found
    by_cases none : length = 0
    · rw [if_neg (by simp [none])] at hn
      rw [numeral_cut (n + 1) (by rw [hnum, none]; exact Nat.zero_le _), hnum,
        if_neg (by simp [none]), if_neg (by simp [none])]
      exact of_eq (sign_cut hn)
    · rw [if_pos (by simp [none])] at clean hn apart
      obtain ⟨length', isReal', again, filled, same⟩ := number_cut hnum clean hn apart
      rw [again, if_pos (by simpa using filled none), if_pos (by simpa using none)]
      exact same

end Scan

end Mim
