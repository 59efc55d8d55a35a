import Mim.Proofs.Lexing.Longest
import Mim.Proofs.Lexing.Tokens

/-! # What is taken and the rules

What is taken at the start of a text is read by one of the rules, and none of them matches
more of the text. Only a numeral whose point is left to a member is shorter, by that point.
-/

namespace Mim

open Shape Scan

/-! ## What a rule may begin with -/

/-- What is looked for in a text, told from its first character. -/
inductive Lead where
  | blank | word | percent | string | char | slash | numeralOrSign
  deriving DecidableEq

def Lead.of (c : Char) : Lead :=
  if isBlank c then .blank
  else if isWordStart c then .word
  else if c = '%' then .percent
  else if c = '"' then .string
  else if c = '\'' then .char
  else if c = '/' then .slash
  else .numeralOrSign

theorem Lead.of_blank {c : Char} (h : isBlank c) : Lead.of c = .blank := if_pos h

theorem Lead.of_word {c : Char} (h : isWordStart c) : Lead.of c = .word := by
  rw [Lead.of, if_neg (by simp [isBlank_of_isWordStart h]), if_pos h]

theorem Lead.of_sign {c : Char} (h : isNumeralOrSign c) : Lead.of c = .numeralOrSign := by
  simp only [isNumeralOrSign, Bool.and_eq_true, Bool.not_eq_true', bne_iff_ne, ne_eq] at h
  simp [Lead.of, h]

namespace Rule

def lead : Rule → Lead
  | .spelling text _ _ => Lead.of (text.headD ' ')
  | .word => .word
  | .annex => .percent
  | .integer | .decimal | .hexadecimal => .numeralOrSign
  | .string | .openString => .string
  | .char => .char
  | .doc | .lineComment | .blockComment => .slash
  | .blanks => .blank

theorem heads_number {l : Language Char} (h : Pattern.Heads (fun c => c.isDigit || c == '.') l) :
    Pattern.Heads (Lead.of · = .numeralOrSign) (Pattern.sign * l) := by
  apply h.sign_mul.mono
  intro c hc
  simp only [Bool.or_eq_true, beq_iff_eq] at hc
  rcases hc with ((digit | rfl) | rfl) | rfl
  · exact decide_eq_true (Lead.of_sign (isNumeralOrSign_of_isDigit digit))
  · rfl
  · rfl
  · rfl

/-- A rule matches only where its lead stands. -/
theorem lead_of_mem {rule : Rule} {w : List Char} (h : w ∈ rule.pattern) :
    ∃ c v, w = c :: v ∧ Lead.of c = rule.lead := by
  have just : ∀ {d : Char} {l : Language Char}, w ∈ Pattern.just d * l →
      ∃ c v, w = c :: v ∧ Lead.of c = Lead.of d := by
    intro d l h
    obtain ⟨v, rfl, -⟩ := Pattern.mem_just_mul.1 h
    exact ⟨d, v, rfl, rfl⟩
  have slashes : ∀ {text : List Char} {l : Language Char}, w ∈ ({'/' :: text} : Language Char) * l →
      ∃ c v, w = c :: v ∧ Lead.of c = .slash := by
    intro text l h
    obtain ⟨v, rfl, -⟩ := Pattern.mem_text_mul.1 h
    exact ⟨'/', text ++ v, rfl, rfl⟩
  have number : ∀ {l : Language Char}, Pattern.Heads (fun c => c.isDigit || c == '.') l →
      w ∈ Pattern.sign * l → ∃ c v, w = c :: v ∧ Lead.of c = .numeralOrSign := by
    intro l heads h
    obtain ⟨c, v, rfl, hc⟩ := heads_number heads w h
    exact ⟨c, v, rfl, of_decide_eq_true hc⟩
  cases rule with
  | spelling text token listed =>
      obtain rfl : w = text := h
      have filled : ∀ s ∈ Token.spellings, s.1 ≠ [] := by decide +kernel
      obtain ⟨c, v, rfl⟩ := List.exists_cons_of_ne_nil (filled _ listed)
      exact ⟨c, v, rfl, rfl⟩
  | word =>
      obtain ⟨c, v, rfl, start, -⟩ := Pattern.mem_oneOf_mul.1 h
      exact ⟨c, v, rfl, Lead.of_word start⟩
  | annex => exact just h
  | integer => exact number (Pattern.Heads.natural.mono fun c hc => by simp [hc]) h
  | decimal => exact number (fun w hw => heads_real w (.inl hw)) h
  | hexadecimal => exact number (fun w hw => heads_real w (.inr hw)) h
  | string => exact just h
  | openString => exact just h
  | char => exact just h
  | doc => exact slashes h
  | lineComment => exact slashes h
  | blockComment =>
      obtain rfl : w = "/*".toList := h
      exact ⟨'/', ['*'], rfl, rfl⟩
  | blanks =>
      obtain ⟨c, v, rfl, blank, -⟩ := Pattern.mem_oneOf_mul.1 h
      exact ⟨c, v, rfl, Lead.of_blank blank⟩

/-- A rule that matches part of a text has its lead at the start of the text. -/
theorem lead_of_prefix {rule : Rule} {w cs : List Char} {c : Char} (h : w ∈ rule.pattern)
    (hp : w <+: c :: cs) : rule.lead = Lead.of c ∧ ∃ v ds, w = c :: v ∧ cs = v ++ ds := by
  obtain ⟨d, v, rfl, lead⟩ := lead_of_mem h
  obtain ⟨rfl, ds, eq⟩ := List.cons_prefix_cons.1 hp
  exact ⟨lead.symm, v, ds, rfl, eq.symm⟩

end Rule

/-! ## No rule matches more -/

namespace Scan

variable {c : Char} {cs w : List Char} {rule : Rule}

theorem word_most (start : isWordStart c) (h : w ∈ rule.pattern) (hp : w <+: c :: cs) :
    w.length ≤ run isWordChar cs + 1 := by
  obtain ⟨lead, v, ds, rfl, rfl⟩ := Rule.lead_of_prefix h hp
  rw [Lead.of_word start] at lead
  cases rule with
  | spelling text token listed =>
      have letters : ∀ s ∈ Token.spellings, Lead.of (s.1.headD ' ') = .word → s.1.all isWordChar := by
        decide +kernel
      obtain rfl : c :: v = text := h
      have all := letters _ listed lead
      rw [List.all_cons, Bool.and_eq_true] at all
      rw [run_append_of_all all.2, List.length_cons]
      omega
  | word =>
      have most := longest_word.most h ds
      rw [List.cons_append, word, if_pos start] at most
      omega
  | _ => cases lead

/-- A point and a word. -/
def member : List Char → Nat := behind (· == '.') word

theorem longest_member : Longest (Pattern.just '.' * Pattern.word) member := longest_word.behind

theorem member_point (cs : List Char) : member ('.' :: cs) = if word cs = 0 then 0 else 1 + word cs := by
  by_cases none : word cs = 0 <;> simp [member, behind, none]

theorem member_other (h : ∀ ds, cs ≠ '.' :: ds) : member cs = 0 := by
  cases cs with
  | nil => rfl
  | cons d ds =>
      have other : d ≠ '.' := fun point => h ds (by rw [point])
      simp [member, behind, other]

/-- A percent sign that no word follows, or one in front of two words or three. -/
theorem percent_clean (clean : (percent cs).IsClean) :
    (word cs = 0 ∧ percent cs = .token 0 .percent) ∨
      (word cs ≠ 0 ∧ member (cs.drop (word cs)) ≠ 0 ∧
        (percent cs).more = word cs + (member (cs.drop (word cs)) +
          member ((cs.drop (word cs)).drop (member (cs.drop (word cs))))) ∧
        ∃ path : AnnexPath, path.IsOfWords ∧ (percent cs).token? = some (.annex path)) := by
  have part : ∀ {cs}, word cs ≠ 0 → (String.ofList (cs.take (word cs))).toList ∈ Pattern.word := by
    intro cs some
    rw [String.toList_ofList]
    exact longest_word.matched cs some
  revert clean
  simp only [percent]
  split
  · next none =>
      intro _
      exact .inl ⟨by simpa using none, rfl⟩
  · next filled =>
      have first : word cs ≠ 0 := by simpa using filled
      split
      · next rest hrest =>
          split
          · exact fun clean => clean.absurd
          · next filled =>
              intro _
              have second : word rest ≠ 0 := by simpa using filled
              rw [hrest, member_point, if_neg second, Nat.add_comm 1, List.drop_succ_cons]
              refine .inr ⟨first, Nat.succ_ne_zero _, ?_⟩
              split
              · next rest' hrest' =>
                  rw [hrest', member_point]
                  split
                  · next none =>
                      rw [if_pos (by simpa using none)]
                      refine ⟨?_, _, ?_, rfl⟩
                      · exact Nat.add_right_comm _ _ _
                      · exact ⟨part first, part second, by simp⟩
                  · next filled =>
                      have third : word rest' ≠ 0 := by simpa using filled
                      rw [if_neg third]
                      refine ⟨?_, _, ?_, rfl⟩
                      · change word cs + 1 + word rest + 1 + word rest' = _
                        omega
                      · refine ⟨part first, part second, ?_⟩
                        rintro _ ⟨⟩
                        exact part third
              · next no =>
                  rw [member_other no]
                  refine ⟨?_, _, ?_, rfl⟩
                  · exact Nat.add_right_comm _ _ _
                  · exact ⟨part first, part second, by simp⟩
      · exact fun clean => clean.absurd

theorem percent_most (clean : (percent cs).IsClean) (h : w ∈ rule.pattern) (hp : w <+: '%' :: cs) :
    w.length ≤ (percent cs).more + 1 := by
  obtain ⟨lead, v, ds, rfl, rfl⟩ := Rule.lead_of_prefix h hp
  cases rule with
  | spelling text token listed =>
      have single : ∀ s ∈ Token.spellings, Lead.of (s.1.headD ' ') = .percent → s.1.length = 1 := by
        decide +kernel
      obtain rfl : '%' :: v = text := h
      have length : ('%' :: v).length = 1 := single _ listed lead
      omega
  | annex =>
      obtain ⟨v', eq, hv⟩ := Pattern.mem_just_mul.1 h
      obtain rfl := (List.cons.inj eq).2
      obtain ⟨a, ha, _, rest, rfl⟩ := Language.mem_mul.1 hv
      obtain ⟨_, rfl, parts⟩ := Pattern.mem_just_mul.1 rest
      obtain ⟨b, hb, d, hd, rfl⟩ := Language.mem_mul.1 parts
      have point : isWordChar '.' = false := rfl
      have first : word (a ++ '.' :: (b ++ (d ++ ds))) = a.length := word_append_cons ha point _
      have split : a ++ '.' :: (b ++ d) ++ ds = a ++ '.' :: (b ++ (d ++ ds)) := by simp
      rw [split] at clean ⊢
      rcases percent_clean clean with ⟨none, -⟩ | ⟨-, -, more, -⟩
      · exact absurd none (longest_word.ne_zero ha _)
      · rw [first, List.drop_left] at more
        have second := longest_member.most (Pattern.mem_just_mul.2 ⟨b, rfl, hb⟩) (d ++ ds)
        rw [List.cons_append] at second
        rcases hd with rfl | hd
        · simp only [List.length_cons, List.length_append, List.length_nil] at more second ⊢
          omega
        · -- the third part is looked for behind the second
          have third := longest_member.most hd ds
          obtain ⟨d, rfl, -⟩ := Pattern.mem_just_mul.1 hd
          have filled : b.length ≠ 0 := by
            rw [Ne, List.length_eq_zero_iff]
            exact fun nil => longest_word.filled (nil ▸ hb)
          have whole : member ('.' :: (b ++ ('.' :: d ++ ds))) = b.length + 1 := by
            rw [member_point, List.cons_append, word_append_cons hb point, if_neg filled, Nat.add_comm]
          rw [whole, List.drop_succ_cons, List.drop_left] at more
          simp only [List.length_cons, List.length_append] at more third ⊢
          omega
  | _ => cases lead

/-- No fixed spelling begins with a quote or a slash. -/
theorem spelled_lead {s : List Char × Token} (h : s ∈ Token.spellings) :
    Lead.of (s.1.headD ' ') ≠ .string ∧ Lead.of (s.1.headD ' ') ≠ .char ∧
      Lead.of (s.1.headD ' ') ≠ .slash := by
  have table : ∀ s ∈ Token.spellings, Lead.of (s.1.headD ' ') ≠ .string ∧
      Lead.of (s.1.headD ' ') ≠ .char ∧ Lead.of (s.1.headD ' ') ≠ .slash := by decide +kernel
  exact table s h

/-- A string without broken text is closed. -/
theorem string_clean (clean : (string cs).IsClean) : ∃ ds, cs.drop (stringBody cs) = '"' :: ds ∧
    string cs = .token (stringBody cs + 1)
      (.literal (.string (String.ofList (Quoted.decode (cs.take (stringBody cs)))))) := by
  unfold string at clean ⊢
  dsimp only at clean ⊢
  split at clean
  · next closed =>
      obtain ⟨ds, eq⟩ := List.head?_eq_some_iff.1 (beq_iff_eq.1 closed)
      exact ⟨ds, eq, if_pos closed⟩
  · exact clean.absurd

theorem string_most (clean : (string cs).IsClean) (h : w ∈ rule.pattern) (hp : w <+: '"' :: cs) :
    w.length ≤ (string cs).more + 1 := by
  obtain ⟨_, -, closed⟩ := string_clean clean
  obtain ⟨lead, v, ds, rfl, rfl⟩ := Rule.lead_of_prefix h hp
  rw [closed]
  cases rule with
  | spelling text token listed =>
      obtain rfl : '"' :: v = text := h
      exact absurd lead (spelled_lead listed).1
  | string =>
      obtain ⟨_, eq, hv⟩ := Pattern.mem_just_mul.1 h
      obtain rfl := (List.cons.inj eq).2
      obtain ⟨body, hbody, _, quote, rfl⟩ := Language.mem_mul.1 hv
      obtain rfl := Pattern.mem_just.1 quote
      rw [List.append_assoc, stringBody_mem hbody, List.length_cons, List.length_append]
      simp only [Taken.token, List.length_cons, List.length_nil]
      omega
  | openString =>
      obtain ⟨_, eq, hv⟩ := Pattern.mem_just_mul.1 h
      obtain rfl := (List.cons.inj eq).2
      rw [stringBody_mem hv, List.length_cons]
      simp only [Taken.token]
      omega
  | _ => cases lead

/-- A character in quotes is any but these two, or a backslash and any character on its line. -/
theorem mem_char : w ∈ Rule.char.pattern ↔
    (∃ c, w = ['\'', c, '\''] ∧ c ≠ '\'' ∧ c ≠ '\\') ∨ ∃ c, w = ['\'', '\\', c, '\''] ∧ c ≠ '\n' := by
  unfold Rule.pattern
  rw [Pattern.mem_just_mul]
  constructor
  · rintro ⟨v, rfl, hv⟩
    obtain ⟨_, inside, _, quote, rfl⟩ := Language.mem_mul.1 hv
    obtain rfl := Pattern.mem_just.1 quote
    rcases inside with ⟨c, plain, rfl⟩ | pair
    · exact .inl ⟨c, rfl, by simpa using plain⟩
    · obtain ⟨_, rfl, c, plain, rfl⟩ := Pattern.mem_just_mul.1 pair
      exact .inr ⟨c, rfl, by simpa using plain⟩
  · rintro (⟨c, rfl, plain⟩ | ⟨c, rfl, plain⟩)
    · have single : [c] ∈ Pattern.oneOf (fun c => c != '\'' && c != '\\') :=
        ⟨c, by simpa using plain, rfl⟩
      exact ⟨_, rfl, [c], .inl single, _, Pattern.mem_just.2 rfl, rfl⟩
    · have pair : ['\\', c] ∈ Pattern.just '\\' * Pattern.oneOf (· != '\n') :=
        Pattern.mem_just_mul.2 ⟨[c], rfl, c, by simpa using plain, rfl⟩
      exact ⟨_, rfl, ['\\', c], .inr pair, _, Pattern.mem_just.2 rfl, rfl⟩

theorem char_most (clean : (char cs).IsClean) (h : w ∈ rule.pattern) (hp : w <+: '\'' :: cs) :
    w.length ≤ (char cs).more + 1 := by
  obtain ⟨lead, v, ds, rfl, rfl⟩ := Rule.lead_of_prefix h hp
  cases rule with
  | spelling text token listed =>
      obtain rfl : '\'' :: v = text := h
      exact absurd lead (spelled_lead listed).2.1
  | char =>
      rcases mem_char.1 h with ⟨c, eq, quote, escape⟩ | ⟨c, eq, plain⟩
      · obtain rfl := (List.cons.inj eq).2
        -- a pair is longer still
        have two : 2 ≤ (char (c :: '\'' :: ds)).more := by
          unfold char
          split
          · next eq => exact absurd (List.cons.inj eq).1 escape
          · next eq =>
              obtain ⟨rfl, -⟩ := List.cons.inj eq
              rw [if_neg (by simp [quote, escape])]
              exact Nat.le_refl _
          · next no => exact absurd rfl (no c ds)
        exact Nat.succ_le_succ two
      · obtain rfl := (List.cons.inj eq).2
        have three : char ('\\' :: c :: '\'' :: ds) = .token 3 (.literal (.char (Quoted.decodeEscape c))) := by
          rw [char, if_neg (by simpa using plain)]
        rw [List.cons_append, List.cons_append, List.cons_append, List.nil_append, three]
        exact Nat.le_refl _
  | _ => cases lead

theorem slash_most {line : List Char} (h : w ∈ rule.pattern) (hp : w <+: '/' :: '/' :: '/' :: line) :
    w.length ≤ run (· != '\n') line + 3 := by
  obtain ⟨lead, v, ds, rfl, eq⟩ := Rule.lead_of_prefix h hp
  cases rule with
  | spelling text token listed =>
      obtain rfl : '/' :: v = text := h
      exact absurd lead (spelled_lead listed).2.2
  | doc =>
      obtain ⟨v', eq', hv⟩ := Pattern.mem_text_mul.1 h
      obtain rfl : v = '/' :: '/' :: v' := (List.cons.inj eq').2
      obtain rfl : line = v' ++ ds := (List.cons.inj (List.cons.inj eq).2).2
      rw [run_append_of_all (Pattern.mem_many.1 hv)]
      simp only [List.length_cons]
      omega
  | lineComment =>
      obtain ⟨v', eq', hv⟩ := Pattern.mem_text_mul.1 h
      obtain rfl : v = '/' :: v' := (List.cons.inj eq').2
      rcases hv with rfl | hv
      · simp only [List.length_cons, List.length_nil]
        omega
      · -- a comment has no third slash
        obtain ⟨c, v', rfl, plain, -⟩ := Pattern.mem_oneOf_mul.1 hv
        obtain rfl : c = '/' := (List.cons.inj (List.cons.inj eq).2).1.symm
        cases plain
  | blockComment =>
      obtain rfl : v = ['*'] := (List.cons.inj (show '/' :: v = "/*".toList from h)).2
      cases (List.cons.inj eq).1
  | _ => cases lead

/-- Where a sign of more than one character stands no numeral does. -/
theorem numeral_spelled {s : List Char × Token} (h : s ∈ Token.signs) (long : 1 < s.1.length)
    (ds : List Char) : (numeral (s.1 ++ ds)).1 = 0 := by
  have table : ∀ s ∈ Token.signs, 1 < s.1.length → s.1.head?.any isJoint = false ∨
      s.1 = "->".toList ∨ s.1 = ".bot".toList ∨ s.1 = ".top".toList := by decide +kernel
  have solid : ∀ {c : Char} (cs : List Char), isJoint c = false → run isJoint (c :: cs) = 0 := by
    intro c cs hc
    rw [run_cons, hc]
    rfl
  rcases table s h long with apart | eq | eq | eq
  · obtain ⟨c, v, eq⟩ := List.exists_cons_of_length_pos (Nat.lt_of_succ_lt long)
    rw [eq] at apart ⊢
    have within := numeral_within (c :: (v ++ ds))
    rw [solid _ (by simpa using apart)] at within
    exact Nat.le_zero.1 within
  · rw [eq]
    have natural : natural ('>' :: ds) = 0 := Nat.le_zero.1 (munch_natural.within ('>' :: ds))
    have real : real ('>' :: ds) = 0 := Nat.le_zero.1 (munch_real.within ('>' :: ds))
    simp [numeral, Shape.sign, natural, real]
  · rw [eq]
    simp [numeral, Shape.sign, natural, real, marked, fractional, pointed, power, run_cons]
  · rw [eq]
    simp [numeral, Shape.sign, natural, real, marked, fractional, pointed, power, run_cons]

/-- Where a numeral stands nothing is longer, and elsewhere the longest sign is. -/
theorem sign_most (sign : isNumeralOrSign c) (h : w ∈ rule.pattern) (hp : w <+: c :: cs) :
    w.length ≤ if (numeral (c :: cs)).1 = 0 then (Scan.sign (c :: cs)).more + 1
      else (numeral (c :: cs)).1 := by
  obtain ⟨lead, v, ds, rfl, rfl⟩ := Rule.lead_of_prefix h hp
  rw [Lead.of_sign sign] at lead
  have number : c :: v ∈ Pattern.sign * Pattern.natural +
      (Pattern.sign * Pattern.decimal + Pattern.sign * Pattern.hexadecimal) →
      (c :: v).length ≤ if (numeral (c :: (v ++ ds))).1 = 0 then (Scan.sign (c :: (v ++ ds))).more + 1
        else (numeral (c :: (v ++ ds))).1 := by
    rw [← mul_add, ← mul_add]
    intro number
    have some : (numeral (c :: (v ++ ds))).1 ≠ 0 := longest_numeral.ne_zero number ds
    rw [if_neg some]
    exact longest_numeral.most number ds
  cases rule with
  | spelling text token listed =>
      have signs : ∀ s ∈ Token.spellings, Lead.of (s.1.headD ' ') = .numeralOrSign → s ∈ Token.signs := by
        decide +kernel
      obtain rfl : c :: v = text := h
      have listed := signs _ listed lead
      split
      · have most := (@length_le_longest (c :: (v ++ ds)) Token.signs
          ([], .error .unrecognizedToken)).2 _ listed (List.isPrefixOf_iff_prefix.2 hp)
        rw [sign_eq]
        simp only [Taken.token] at most ⊢
        omega
      · next some =>
          by_cases long : 1 < (c :: v).length
          · exact absurd (numeral_spelled listed long ds) some
          · omega
  | integer => exact number (.inl h)
  | decimal => exact number (.inr (.inl h))
  | hexadecimal => exact number (.inr (.inr h))
  | _ => cases lead

/-! ## A rule matches what is taken -/

variable {t : Token}

/-- A word that is no name is spelled as its token is. -/
theorem ofWord_spelled (word : String) :
    Token.ofWord word = .ident word ∨ (word.toList, Token.ofWord word) ∈ Token.spellings := by
  unfold Token.ofWord Token.spellings
  simp only [List.mem_append, List.mem_map]
  split
  · next eq =>
      rw [eq]
      exact .inr (.inl (.inr (by simp)))
  · split
    · next eq =>
        rw [eq]
        exact .inr (.inl (.inr (by simp)))
    · split
      · next found eq =>
          rcases (Option.orElse_eq_some _ _ _).1 eq with keyword | ⟨-, another⟩
          · have same : found.text = word := by simpa using List.find?_some keyword
            have listed := List.mem_of_find?_eq_some keyword
            exact .inr (.inl (.inl (.inl (.inl ⟨found, listed, by rw [same]⟩))))
          · have listed : (word, found) ∈ Keyword.aliases := by
              obtain ⟨_, _, split, -⟩ := List.lookup_eq_some_iff.1 another
              simp [split]
            exact .inr (.inl (.inl (.inl (.inr ⟨(word, found), listed, rfl⟩))))
      · split
        · next found eq =>
            have same : found.text = word := by simpa using List.find?_some eq
            have listed := List.mem_of_find?_eq_some eq
            exact .inr (.inl (.inl (.inr ⟨found, listed, by rw [same]⟩)))
        · exact .inl rfl

theorem word_read (start : isWordStart c) (taken : (first c cs).token? = some t) :
    Rule.IsRead (c :: cs.take (first c cs).more) t := by
  rw [first_word start] at taken ⊢
  obtain rfl := Option.some.inj taken
  rcases ofWord_spelled (String.ofList (c :: cs.take (run isWordChar cs))) with name | listed
  · have all := all_take_run isWordChar cs (Nat.le_refl _)
    exact ⟨.word, Pattern.mem_oneOf_mul.2 ⟨c, _, rfl, start, Pattern.mem_many.2 all⟩, name⟩
  · rw [String.toList_ofList] at listed
    exact Rule.isRead_spelling listed

/-- A path of two words or three, or a percent sign. -/
theorem percent_read (taken : (percent cs).token? = some t) (clean : (percent cs).IsClean) :
    Rule.IsRead ('%' :: cs.take (percent cs).more) t := by
  have text := percent_text taken clean
  rcases percent_clean clean with ⟨-, single⟩ | ⟨first, second, more, path, words, annex⟩
  · rw [single] at taken ⊢
    obtain rfl := Option.some.inj taken
    have listed : (['%'], Token.percent) ∈ Token.spellings := by decide +kernel
    exact Rule.isRead_spelling listed
  · obtain rfl := Option.some.inj (annex.symm.trans taken)
    refine ⟨.annex, ?_, path, words, text.symm, rfl⟩
    rw [more, List.take_add, List.take_add]
    have front := longest_word.matched cs first
    obtain ⟨inside, eq, middle⟩ := Pattern.mem_just_mul.1 (longest_member.matched _ second)
    rw [eq, List.cons_append]
    refine Pattern.mem_just_mul.2 ⟨_, rfl, Language.append_mem_mul front ?_⟩
    refine Pattern.mem_just_mul.2 ⟨_, rfl, Language.append_mem_mul middle ?_⟩
    by_cases third : member ((cs.drop (word cs)).drop (member (cs.drop (word cs)))) = 0
    · rw [third]
      exact .inl rfl
    · exact .inr (longest_member.matched _ third)

theorem string_read (taken : (string cs).token? = some t) (clean : (string cs).IsClean) :
    Rule.IsRead ('"' :: cs.take (string cs).more) t := by
  obtain ⟨ds, quote, closed⟩ := string_clean clean
  rw [closed] at taken ⊢
  have split : cs.take (stringBody cs + 1) = cs.take (stringBody cs) ++ ['"'] := by
    rw [List.take_add, quote]
    rfl
  have body := Language.append_mem_mul (take_stringBody cs) (Pattern.mem_just.2 (rfl : ['"'] = _))
  rw [← split] at body
  exact ⟨.string, Pattern.mem_just_mul.2 ⟨_, rfl, body⟩, cs.take (stringBody cs), congrArg _ split,
    (Option.some.inj taken).symm⟩

theorem char_read (taken : (char cs).token? = some t) (clean : ∀ reason, t ≠ .error reason) :
    Rule.IsRead ('\'' :: cs.take (char cs).more) t := by
  have broken : ∀ {p : Prop}, Taken.unrecognized.token? = some t → p :=
    fun h => absurd (Option.some.inj h).symm (clean _)
  unfold char at taken ⊢
  split at taken
  · next c rest =>
      split at taken
      · exact broken taken
      · next plain =>
          rw [if_neg plain]
          have pair := mem_char.2 (.inr ⟨c, rfl, by simpa using plain⟩)
          exact ⟨.char, pair, c, .inr ⟨rfl, (Option.some.inj taken).symm⟩⟩
  · next c rest no =>
      split at taken
      · exact broken taken
      · next plain =>
          rw [if_neg plain]
          have single := mem_char.2 (.inl ⟨c, rfl, by simpa using plain⟩)
          exact ⟨.char, single, c, .inl ⟨rfl, (Option.some.inj taken).symm⟩⟩
  · exact broken taken

/-- Behind a slash only a doc comment is a token. -/
theorem slash_token (taken : (slash cs).token? = some t) (clean : ∀ reason, t ≠ .error reason) :
    ∃ line, cs = '/' :: '/' :: line ∧ (slash cs).more = run (· != '\n') line + 2 ∧
      t = .doc (String.ofList (docText (line.takeWhile (· != '\n')))) := by
  unfold slash at taken ⊢
  split at taken
  · next line => exact ⟨line, rfl, Nat.add_comm 2 _, (Option.some.inj taken).symm⟩
  · cases taken
  · split at taken
    · cases taken
    · exact absurd (Option.some.inj taken).symm (clean _)
  · exact absurd (Option.some.inj taken).symm (clean _)

theorem slash_read (taken : (slash cs).token? = some t) (clean : ∀ reason, t ≠ .error reason) :
    Rule.IsRead ('/' :: cs.take (slash cs).more) t := by
  obtain ⟨line, rfl, more, rfl⟩ := slash_token taken clean
  have whole : line.take (run (· != '\n') line) = line.takeWhile (· != '\n') :=
    (List.prefix_iff_eq_take.1 (List.takeWhile_prefix _)).symm
  rw [more, List.take_succ_cons, List.take_succ_cons, whole]
  have all := Pattern.mem_many.2 (@List.all_takeWhile _ (· != '\n') line)
  exact ⟨.doc, Pattern.mem_text_mul.2 ⟨_, rfl, all⟩, _, rfl, rfl⟩

/-- A numeral that is a token is an integer, or a float that does not end before a member. -/
theorem number_read {text : List Char} (filled : (numeral text).1 ≠ 0)
    (taken : (number text (numeral text).1 (numeral text).2).token? = some t)
    (clean : ∀ reason, t ≠ .error reason)
    (whole : (number text (numeral text).1 (numeral text).2).beforeMember = false) :
    (number text (numeral text).1 (numeral text).2).more + 1 = (numeral text).1 ∧
      Rule.IsRead (text.take (numeral text).1) t := by
  generalize hnum : numeral text = found at filled taken whole ⊢
  obtain ⟨length, isReal⟩ := found
  have one : length - 1 + 1 = length := Nat.sub_add_cancel (Nat.pos_of_ne_zero filled)
  cases isReal with
  | false =>
      have token : intToken (text.take length) = t := Option.some.inj taken
      unfold intToken at token
      split at token
      · next value found =>
          exact ⟨one, .integer, numeral_natural hnum filled, value, found, token.symm⟩
      · exact absurd token.symm (clean _)
  | true =>
      cases found : Numeral.float? (text.take length) with
      | none =>
          unfold number at taken
          dsimp only at taken
          rw [found] at taken
          exact absurd (Option.some.inj taken).symm (clean _)
      | some value =>
          have reads := number_real found
          split at reads
          · rw [reads] at whole
            cases whole
          · rw [reads] at taken ⊢
            obtain rfl := Option.some.inj taken
            exact ⟨one, Rule.isRead_float (numeral_real hnum) found⟩

/-- The longest sign is at the start of the text. -/
theorem sign_read {text : List Char} (taken : (Scan.sign text).token? = some t)
    (clean : ∀ reason, t ≠ .error reason) : Rule.IsRead (text.take ((Scan.sign text).more + 1)) t := by
  rw [sign_eq] at taken ⊢
  have starts := @longest_starts text Token.signs ([], .error .unrecognizedToken) List.nil_prefix
  have listed := longest_mem text Token.signs ([], .error .unrecognizedToken)
  generalize longest text ([], .error .unrecognizedToken) Token.signs = found at taken starts listed ⊢
  obtain rfl := Option.some.inj taken
  rcases listed with rfl | listed
  · exact absurd rfl (clean _)
  · have filled : ∀ s ∈ Token.signs, s.1.length - 1 + 1 = s.1.length := by decide +kernel
    change Rule.IsRead (text.take (found.1.length - 1 + 1)) found.2
    rw [filled found listed, ← List.prefix_iff_eq_take.1 starts]
    exact Rule.isRead_spelling (List.mem_append_right _ listed)

/-- Some rule reads what is taken, unless it is broken or stands before a member. -/
theorem first_read (taken : (first c cs).token? = some t) (clean : ∀ reason, t ≠ .error reason)
    (whole : (first c cs).beforeMember = false) : Rule.IsRead (c :: cs.take (first c cs).more) t := by
  have isClean := Taken.isClean_of_token taken clean
  rcases lead_cases c with blank | word | rfl | rfl | rfl | rfl | sign
  · rw [first_blank blank] at taken
    cases taken
  · exact word_read word taken
  · exact percent_read taken isClean
  · exact string_read taken isClean
  · exact char_read taken clean
  · exact slash_read taken clean
  · rw [first_sign sign] at taken whole ⊢
    rw [← List.take_succ_cons]
    split at taken
    · next filled =>
        rw [if_pos filled] at whole ⊢
        obtain ⟨more, read⟩ := number_read (by simpa using filled) taken clean whole
        rwa [more]
    · next none =>
        rw [if_neg none]
        exact sign_read taken clean

/-- No rule matches more than what is taken, unless it is broken or stands before a member. -/
theorem first_most (taken : (first c cs).token? = some t) (clean : ∀ reason, t ≠ .error reason)
    (whole : (first c cs).beforeMember = false) (h : w ∈ rule.pattern) (hp : w <+: c :: cs) :
    w.length ≤ (first c cs).more + 1 := by
  have isClean := Taken.isClean_of_token taken clean
  rcases lead_cases c with blank | word | rfl | rfl | rfl | rfl | sign
  · rw [first_blank blank] at taken
    cases taken
  · rw [first_word word]
    exact word_most word h hp
  · exact percent_most isClean h hp
  · exact string_most isClean h hp
  · exact char_most isClean h hp
  · obtain ⟨line, rfl, more, -⟩ := slash_token taken clean
    rw [first_slash, more]
    exact slash_most h hp
  · have most := sign_most sign h hp
    rw [first_sign sign] at taken whole ⊢
    split at taken
    · next filled =>
        rw [if_pos filled] at whole ⊢
        rw [if_neg (by simpa using filled)] at most
        obtain ⟨more, -⟩ := number_read (by simpa using filled) taken clean whole
        rwa [more]
    · next none =>
        rw [if_neg none]
        rwa [if_pos (by simpa using none)] at most

/-- What is taken has the token of its spelling, if that is fixed. -/
theorem first_spelled (taken : (first c cs).token? = some t) (clean : ∀ reason, t ≠ .error reason)
    (whole : (first c cs).beforeMember = false) {token : Token}
    (listed : (c :: cs.take (first c cs).more, token) ∈ Token.spellings) : t = token := by
  have table : ∀ s ∈ Token.spellings, (first (s.1.headD ' ') s.1.tail).token? = some s.2 := by
    decide +kernel
  have isClean := Taken.isClean_of_token taken clean
  obtain ⟨-, alone⟩ := first_cut isClean (Nat.le_refl _) fun member => by simp [whole] at member
  exact Option.some.inj ((taken.symm.trans alone.symm).trans (table _ listed))

/-- A numeral in front of a member is a finite number with the point, and no rule matches
    more than that. -/
theorem first_split (member : (first c cs).beforeMember) :
    (first c cs).token? = some (intToken (c :: cs.take (first c cs).more)) ∧
      (∃ value, Rule.IsRead (c :: cs.take (first c cs).more ++ ['.']) (.literal (.float value))) ∧
      (∃ d ds, cs.drop (first c cs).more = '.' :: d :: ds ∧ isWordStart d) ∧
      ∀ {rule : Rule} {w : List Char}, w ∈ rule.pattern → w <+: c :: cs →
        w.length ≤ (first c cs).more + 2 := by
  obtain ⟨sign, length, isReal, hnum, taken⟩ := first_member member
  rw [taken] at member ⊢
  obtain ⟨two, rfl, ⟨value, found⟩, ⟨ds, point, follows⟩, eq⟩ := number_member hnum member
  obtain ⟨more, rfl⟩ := Nat.exists_eq_add_of_le' two
  replace point : cs.drop more = '.' :: ds := point
  have front : (c :: cs).take (more + 2) = c :: cs.take more ++ ['.'] := by
    rw [List.take_succ_cons, List.take_add, point]
    rfl
  rw [eq]
  refine ⟨rfl, ⟨value, ?_⟩, ?_, ?_⟩
  · rw [front] at found
    exact Rule.isRead_float (front ▸ numeral_real hnum) found
  · cases ds with
    | nil => exact absurd rfl follows
    | cons d ds =>
        refine ⟨d, ds, point, ?_⟩
        simpa [word] using follows
  · intro rule w h hp
    have most := sign_most sign h hp
    rw [hnum, if_neg (by simp)] at most
    exact most

end Scan

end Mim
