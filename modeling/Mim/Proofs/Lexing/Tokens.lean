import Mathlib.Data.List.DropRight
import Mim.Proofs.Lexing.Scan
import Mim.Proofs.Numerals

/-! # Tokens read back

The canonical text of a token is one lexeme, and that lexeme is the token, for every token
that a text can have.
-/

namespace Mim

open Shape Scan

/-- The text of a token by itself is a lexeme that stands for the token. -/
def Token.Reads (t : Token) : Prop :=
  ∃ c w, t.text = c :: w ∧ (first c w).more = w.length ∧ (first c w).token? = some t

theorem Scan.isNumeralOrSign_of_isDigit {c : Char} (h : c.isDigit) : isNumeralOrSign c := by
  have range : 48 ≤ c.val ∧ c.val ≤ 57 := by
    simpa [Char.isDigit] using h
  rcases lead_cases c with blank | word | rfl | rfl | rfl | rfl | sign
  · simp only [isBlank, Bool.or_eq_true, beq_iff_eq] at blank
    rcases blank with (((rfl | rfl) | rfl) | rfl) | rfl <;> cases h
  · have alpha : c.isAlpha = (c.isUpper || c.isLower) := rfl
    simp only [isWordStart, alpha, Bool.or_eq_true, beq_iff_eq] at word
    rw [UInt32.le_iff_toNat_le, UInt32.le_iff_toNat_le] at range
    rcases word with (upper | lower) | rfl
    · have below := range.2
      have above := UInt32.le_iff_toNat_le.1 (of_decide_eq_true upper).1
      simp at below above
      omega
    · have below := range.2
      have above := UInt32.le_iff_toNat_le.1 (of_decide_eq_true (Bool.and_eq_true_iff.1 lower).1)
      simp at below above
      omega
    · cases h
  · cases h
  · cases h
  · cases h
  · cases h
  · exact sign

namespace Token

-- stated without the equations of the definition, which are slow to derive: one holds a text
@[simp] theorem text_ident (name : String) : (ident name).text = name.toList := rfl

@[simp] theorem text_annex (path : AnnexPath) : (annex path).text = '%' :: path.text.toList := rfl

@[simp] theorem text_literal (value : Literal) : (literal value).text = value.text := rfl

/-- It can be computed for a given token. -/
theorem reads_of {t : Token} (h : (match t.text with
    | [] => false
    | c :: w => (first c w).more == w.length && (first c w).token? == some t) = true) : t.Reads := by
  split at h
  · cases h
  · next c w text =>
      simp only [Bool.and_eq_true, beq_iff_eq] at h
      exact ⟨c, w, text, h.1, h.2⟩

theorem reads_keyword (k : Keyword) : (keyword k).Reads := reads_of (by cases k <;> decide +kernel)

theorem reads_primitive (ty : Primitive) : (primitive ty).Reads :=
  reads_of (by cases ty <;> decide +kernel)

theorem reads_symbol (s : Symbol) : (symbol s).Reads := reads_of (by cases s <;> decide +kernel)

theorem reads_bool (b : Bool) : (literal (.bool b)).Reads := reads_of (by cases b <;> decide +kernel)

theorem reads_char (c : Char) : (literal (.char c)).Reads := by
  refine ⟨'\'', Quoted.encodeChar c ++ ['\''], rfl, ?_⟩
  rw [first_char]
  unfold Quoted.encodeChar
  split
  · exact ⟨rfl, rfl⟩
  · exact ⟨rfl, rfl⟩
  · exact ⟨rfl, rfl⟩
  · exact ⟨rfl, rfl⟩
  · exact ⟨rfl, rfl⟩
  · exact ⟨rfl, rfl⟩
  · next backslash quote =>
      have plain : Scan.char [c, '\''] = .token 2 (.literal (.char c)) := by
        unfold Scan.char
        simp [show c ≠ '\'' from quote, show c ≠ '\\' from backslash]
      rw [List.singleton_append, plain]
      exact ⟨rfl, rfl⟩

/-- A literal whose text is one numeral. -/
theorem reads_numeral {value : Literal} {isReal : Bool}
    (lead : ∃ c w, value.text = c :: w ∧ (c.isDigit ∨ c = '-'))
    (whole : numeral value.text = (value.text.length, isReal))
    (reads : number value.text value.text.length isReal =
      .token (value.text.length - 1) (.literal value)) : (literal value).Reads := by
  obtain ⟨c, w, text, lead⟩ := lead
  rw [text] at whole reads
  have sign : isNumeralOrSign c := by
    rcases lead with digit | rfl
    · exact isNumeralOrSign_of_isDigit digit
    · rfl
  refine ⟨c, w, text, ?_⟩
  rw [first_sign sign, whole, if_pos (by simp), reads]
  exact ⟨rfl, rfl⟩

theorem reads_int {v : Int} (h : Numeral.isInt128 v) : (literal (.int v)).Reads := by
  refine reads_numeral (Numeral.intText_cons v) (Numeral.numeral_intText v) ?_
  change Taken.token _ (intToken ((Numeral.intText v).take (Numeral.intText v).length)) = _
  rw [List.take_length, intToken, Numeral.int?_intText h]

theorem reads_float (x : Binary64) : (literal (.float x)).Reads := by
  have value : Numeral.float? ((Numeral.floatText x).take (Numeral.floatText x).length) = some x := by
    rw [List.take_length, Numeral.float?_floatText]
  refine reads_numeral (Numeral.floatText_cons x) (Numeral.numeral_floatText x) ?_
  rw [Literal.text, number_real value, List.take_length, if_neg]
  simp [Numeral.getLast?_floatText x]

end Token

namespace Scan

variable {c : Char} {cs : List Char} {t : Token}

/-- A token whose text is the lexeme that it was read from. -/
theorem reads_cut (h : (first c cs).token? = some t) (clean : (first c cs).IsClean)
    (text : t.text = c :: cs.take (first c cs).more) : t.Reads := by
  obtain ⟨more, token⟩ := first_cut clean (Nat.le_refl _) fun _ => by omega
  refine ⟨c, _, text, ?_, token.trans h⟩
  rw [more, List.length_take_of_le (first_le c cs)]

/-- A word is a name unless it is one of the words that mean something else. -/
theorem ofWord_cases (word : String) : (∃ b, Token.ofWord word = .literal (.bool b)) ∨
    (∃ k, Token.ofWord word = .keyword k) ∨ (∃ ty, Token.ofWord word = .primitive ty) ∨
    Token.ofWord word = .ident word := by
  unfold Token.ofWord
  split
  · exact .inl ⟨_, rfl⟩
  · split
    · exact .inl ⟨_, rfl⟩
    · split
      · exact .inr (.inl ⟨_, rfl⟩)
      · split
        · exact .inr (.inr (.inl ⟨_, rfl⟩))
        · exact .inr (.inr (.inr rfl))

theorem reads_word (h : isWordStart c) (token : (first c cs).token? = some t)
    (clean : (first c cs).IsClean) : t.Reads := by
  have word : Token.ofWord (String.ofList (c :: cs.take (run isWordChar cs))) = t := by
    rw [first_word h] at token
    exact Option.some.inj token
  rcases ofWord_cases (String.ofList (c :: cs.take (run isWordChar cs))) with ⟨b, eq⟩ | ⟨k, eq⟩ |
    ⟨ty, eq⟩ | eq
  · exact word ▸ eq ▸ Token.reads_bool b
  · exact word ▸ eq ▸ Token.reads_keyword k
  · exact word ▸ eq ▸ Token.reads_primitive ty
  · refine reads_cut token clean ?_
    rw [← word, eq, first_word h, Token.text_ident, String.toList_ofList]
    rfl

/-- The text of a path or of a percent sign is the lexeme. -/
theorem percent_text (token : (percent cs).token? = some t) (clean : (percent cs).IsClean) :
    t.text = '%' :: cs.take (percent cs).more := by
  -- what is behind a part is a point and the next part
  have part : ∀ {n : Nat} (k : Nat) {cs ds : List Char}, cs.drop n = '.' :: ds →
      cs.take (n + 1 + k) = cs.take n ++ '.' :: ds.take k := by
    intro n k cs ds h
    rw [Nat.add_assoc, List.take_add, h, Nat.add_comm 1, List.take_succ_cons]
  revert token clean
  simp only [percent]
  split
  · intro token _
    obtain rfl := Option.some.inj token
    rfl
  · split
    · next ds hds =>
        split
        · exact fun _ clean => clean.absurd
        · split
          · next es hes =>
              split
              · intro token _
                obtain rfl := Option.some.inj token
                simp [AnnexPath.text, Taken.token, part _ hds]
              · intro token _
                obtain rfl := Option.some.inj token
                have both : cs.drop (word cs + 1 + word ds) = '.' :: es := by
                  rw [Nat.add_assoc, Nat.add_comm 1, ← List.drop_drop, hds, List.drop_succ_cons, hes]
                simp [AnnexPath.text, Taken.token, part _ both, part _ hds]
          · intro token _
            obtain rfl := Option.some.inj token
            simp [AnnexPath.text, Taken.token, part _ hds]
    · exact fun _ clean => clean.absurd

theorem encode_decode (cs : List Char) :
    Quoted.encode (Quoted.decode (cs.take (stringBody cs))) = cs.take (stringBody cs) := by
  fun_induction stringBody cs with
  | case1 c cs ih =>
      rw [Nat.add_comm, List.take_succ_cons, List.take_succ_cons]
      by_cases quote : c = '"'
      · subst quote
        rw [Quoted.decode, Quoted.encode, ih]
      · rw [Quoted.decode, Quoted.encode, Quoted.encode, ih]
        all_goals simp [quote]
  | case2 c cs _ stop => rfl
  | case3 c cs _ plain ih =>
      simp only [Bool.or_eq_true, beq_iff_eq, not_or] at plain
      rw [Nat.add_comm, List.take_succ_cons, Quoted.decode, Quoted.encode, ih]
      all_goals simp [plain]
  | case4 => rfl

theorem string_text (token : (string cs).token? = some t) (clean : (string cs).IsClean) :
    t.text = '"' :: cs.take (string cs).more := by
  unfold string at token clean ⊢
  by_cases closed : (cs.drop (stringBody cs)).head? = some '"'
  · simp only [closed, beq_self_eq_true, if_true] at token ⊢
    obtain rfl := Option.some.inj token
    obtain ⟨rest, eq⟩ := List.head?_eq_some_iff.1 closed
    have quoted : cs.take (stringBody cs + 1) = cs.take (stringBody cs) ++ ['"'] := by
      rw [List.take_add, eq]
      rfl
    rw [show (Taken.token (stringBody cs + 1) _).more = stringBody cs + 1 from rfl, quoted]
    simp [Literal.text, encode_decode]
  · rw [if_neg (by simpa using closed)] at clean
    exact clean.absurd

theorem docText_eq (line : List Char) : docText line = List.rdropWhile (· == '\r')
    ((docText.withoutSlashes line).dropWhile fun c => c == ' ' || c == '\t') := rfl

/-- A doc comment keeps its text when it is written and read again. -/
theorem docText_docText (line : List Char) : docText (' ' :: docText line) = docText line := by
  rw [docText_eq (' ' :: docText line), docText.withoutSlashes, List.dropWhile_cons_of_pos rfl]
  · rw [docText_eq line]
    have solid : (List.rdropWhile (· == '\r') ((docText.withoutSlashes line).dropWhile
        fun c => c == ' ' || c == '\t')).dropWhile (fun c => c == ' ' || c == '\t') =
        List.rdropWhile (· == '\r') ((docText.withoutSlashes line).dropWhile
          fun c => c == ' ' || c == '\t') := by
      generalize hl : List.rdropWhile (· == '\r') ((docText.withoutSlashes line).dropWhile
        fun c => c == ' ' || c == '\t') = l
      cases l with
      | nil => rfl
      | cons c l =>
          obtain ⟨rest, eq⟩ := hl ▸ List.rdropWhile_prefix (· == '\r')
            ((docText.withoutSlashes line).dropWhile fun c => c == ' ' || c == '\t')
          have head := List.head?_dropWhile_not (fun c => c == ' ' || c == '\t')
            (docText.withoutSlashes line)
          rw [← eq] at head
          rw [List.dropWhile_cons_of_neg (by simpa using head)]
    rw [solid, List.rdropWhile_idempotent]
  · simp

theorem mem_docText {line : List Char} {c : Char} (h : c ∈ docText line) : c ∈ line := by
  have slashes : ∀ line : List Char, docText.withoutSlashes line <:+ line := by
    intro line
    fun_induction docText.withoutSlashes line with
    | case1 cs ih => exact ih.trans (List.suffix_append ['/', '/', '/'] cs)
    | case2 => exact List.suffix_refl _
  rw [docText_eq] at h
  exact (slashes line).subset ((List.dropWhile_sublist _).subset ((List.rdropWhile_prefix _ _).subset h))

theorem reads_doc {line : List Char} (h : '\n' ∉ line) :
    (Token.doc (String.ofList (docText line))).Reads := by
  by_cases empty : docText line = []
  · rw [empty]
    exact Token.reads_of (by decide +kernel)
  · have text : (Token.doc (String.ofList (docText line))).text = "/// ".toList ++ docText line := by
      refine (if_neg (by simpa [String.isEmpty_iff] using empty)).trans ?_
      exact congrArg _ String.toList_ofList
    have whole : (' ' :: docText line).takeWhile (· != '\n') = ' ' :: docText line := by
      rw [List.takeWhile_eq_self_iff]
      intro c hc
      rw [bne_iff_ne]
      rintro rfl
      exact h (mem_docText ((List.mem_cons.1 hc).resolve_left (by decide)))
    refine ⟨'/', '/' :: '/' :: ' ' :: docText line, text, ?_⟩
    rw [first_slash, slash, whole, docText_docText]
    simp [Taken.token]
    omega

/-- The longest sign is one of the signs. -/
theorem longest_mem (text : List Char) (signs : List (List Char × Token))
    (best : List Char × Token) : longest text best signs = best ∨ longest text best signs ∈ signs := by
  induction signs generalizing best with
  | nil => exact .inl rfl
  | cons s signs ih =>
      have step : longest text best (s :: signs) = longest text
        (if best.1.length < s.1.length && s.1.isPrefixOf text then s else best) signs := rfl
      rw [step]
      rcases ih (if best.1.length < s.1.length && s.1.isPrefixOf text then s else best) with eq | mem
      · rw [eq]
        split
        · exact .inr List.mem_cons_self
        · exact .inl rfl
      · exact .inr (List.mem_cons_of_mem _ mem)

theorem reads_signs {s : List Char × Token} (h : s ∈ Token.signs) : s.2.Reads := by
  simp only [Token.signs, List.mem_append, List.mem_map] at h
  rcases h with (⟨sign, -, rfl⟩ | ⟨spelled, -, rfl⟩) | h
  · exact Token.reads_symbol sign
  · exact Token.reads_symbol spelled.2
  · simp only [List.mem_cons, List.not_mem_nil, or_false] at h
    rcases h with rfl | rfl | rfl | rfl | rfl | rfl | rfl | rfl
    · exact Token.reads_keyword .lm
    all_goals exact Token.reads_primitive _

theorem reads_intToken {text : List Char} (token : intToken text = t)
    (clean : ∀ reason, t ≠ .error reason) : t.Reads := by
  unfold intToken at token
  split at token
  · next value found => exact token ▸ Token.reads_int (Numeral.isInt128_of_int? found)
  · exact absurd token.symm (clean _)

theorem reads_number {text : List Char} {length : Nat} {isReal : Bool}
    (token : (number text length isReal).token? = some t)
    (clean : ∀ reason, t ≠ .error reason) : t.Reads := by
  unfold number at token
  dsimp only at token
  split at token
  · exact reads_intToken (Option.some.inj token) clean
  · split at token
    · exact absurd (Option.some.inj token).symm (clean _)
    · next value found =>
        split at token
        · exact reads_intToken (Option.some.inj token) clean
        · exact Option.some.inj token ▸ Token.reads_float value

/-- Every token that a text can have reads back from its text. -/
theorem reads (h : (first c cs).token? = some t) (clean : ∀ reason, t ≠ .error reason) :
    t.Reads := by
  have isClean := Taken.isClean_of_token h clean
  rcases lead_cases c with blank | word | rfl | rfl | rfl | rfl | sign
  · rw [first_blank blank] at h
    cases h
  · exact reads_word word h isClean
  · exact reads_cut h isClean (percent_text h isClean)
  · exact reads_cut h isClean (string_text h isClean)
  · rw [first_char] at h
    unfold char at h
    split at h
    · split at h
      · exact absurd (Option.some.inj h).symm (clean _)
      · exact Option.some.inj h ▸ Token.reads_char _
    · split at h
      · exact absurd (Option.some.inj h).symm (clean _)
      · exact Option.some.inj h ▸ Token.reads_char _
    · exact absurd (Option.some.inj h).symm (clean _)
  · rw [first_slash] at h
    unfold slash at h
    split at h
    · obtain rfl := Option.some.inj h
      refine reads_doc fun newline => ?_
      have := List.all_eq_true.1 List.all_takeWhile _ newline
      cases this
    · cases h
    · split at h
      · cases h
      · exact absurd (Option.some.inj h).symm (clean _)
    · exact absurd (Option.some.inj h).symm (clean _)
  · rw [first_sign sign] at h
    split at h
    · exact reads_number h clean
    · rw [sign_eq] at h
      have token := Option.some.inj h
      rcases longest_mem (c :: cs) Token.signs ([], .error .unrecognizedToken) with eq | mem
      · rw [eq] at token
        exact absurd token.symm (clean _)
      · exact token ▸ reads_signs mem

end Scan

end Mim
