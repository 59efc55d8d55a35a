import Mim.Literal
import Mim.Proofs.Lexing.Shapes
import Mim.Proofs.Rounding

/-! # Numbers read back

The text in which a number is written is one numeral, and it stands for that number.
-/

namespace Mim.Numeral

open Shape

section Digits

variable {whole tail : List Char}

theorem digit?_of_isDigit {c : Char} (h : c.isDigit) : digit? 10 c = some (c.toNat - '0'.toNat) := by
  have le : c.toNat ≤ '9'.toNat := by
    simp only [Char.isDigit, Bool.and_eq_true, decide_eq_true_eq] at h
    exact h.2
  have bound : c.toNat - '0'.toNat < 10 := by
    have : '9'.toNat = 57 := rfl
    have : '0'.toNat = 48 := rfl
    omega
  simp only [digit?, if_pos h, if_pos bound]

theorem digits?_eq (ne : whole ≠ []) (digits : whole.all Char.isDigit) :
    digits? 10 whole = some (Nat.ofDigitChars 10 whole 0) := by
  have fold : ∀ (cs : List Char) (n : Nat), cs.all Char.isDigit →
      cs.foldlM (fun value c => (digit? 10 c).map (value * 10 + ·)) n =
        some (Nat.ofDigitChars 10 cs n) := by
    intro cs
    induction cs with
    | nil => exact fun _ _ => rfl
    | cons c cs ih =>
        intro n h
        obtain ⟨first, rest⟩ : c.isDigit ∧ cs.all Char.isDigit := by simpa using h
        rw [List.foldlM_cons, digit?_of_isDigit first, Nat.ofDigitChars_cons, Nat.mul_comm 10]
        exact ih _ rest
  cases whole with
  | nil => exact absurd rfl ne
  | cons c cs => exact fold (c :: cs) 0 digits

theorem natText_ne (n : Nat) : natText n ≠ [] := Nat.toDigits_ne_nil

theorem natText_digits (n : Nat) : (natText n).all Char.isDigit :=
  List.all_eq_true.2 fun _ h => Nat.isDigit_of_mem_toDigits (by decide) (by decide) h

theorem digits?_natText (n : Nat) : digits? 10 (natText n) = some n := by
  rw [digits?_eq (natText_ne n) (natText_digits n), natText, Nat.ofDigitChars_ten_toDigits]

/-- A sign is no digit, and so is every mark of a radix. -/
theorem digits_cases (ne : whole ≠ []) (digits : whole.all Char.isDigit) :
    ∃ c cs, whole = c :: cs ∧ c.isDigit ∧ cs.all Char.isDigit := by
  cases whole with
  | nil => exact absurd rfl ne
  | cons c cs => exact ⟨c, cs, rfl, by simpa using digits⟩

variable (ne : whole ≠ []) (digits : whole.all Char.isDigit)
  (stop : ∀ c ∈ tail.head?, c = '.' ∨ c = 'e')

include digits stop in
theorem takeWhile_digits : (whole ++ tail).takeWhile Char.isDigit = whole ∧
    (whole ++ tail).dropWhile Char.isDigit = tail := by
  have all := List.all_eq_true.1 digits
  rw [List.takeWhile_append_of_pos all, List.dropWhile_append_of_pos all]
  cases tail with
  | nil => simp
  | cons c cs =>
      have other : c.isDigit = false := by
        rcases stop c rfl with rfl | rfl <;> rfl
      simp [other]

include digits stop in
theorem run_digits : run Char.isDigit (whole ++ tail) = whole.length := by
  rw [run, (takeWhile_digits digits stop).1]

include ne digits in
theorem sign_digits (tail : List Char) : Shape.sign (whole ++ tail) = 0 ∧
    splitSign (whole ++ tail) = (false, whole ++ tail) := by
  obtain ⟨c, cs, rfl, first, -⟩ := digits_cases ne digits
  have minus : c ≠ '-' := by rintro rfl; cases first
  have plus : c ≠ '+' := by rintro rfl; cases first
  constructor
  · rw [List.cons_append, Shape.sign]
    · simpa using plus
    · simpa using minus
  · rw [List.cons_append, splitSign]
    · simpa using minus
    · simpa using plus

include ne digits stop

/-- The second character marks no radix. -/
theorem second_digits {c d : Char} {cs : List Char} (h : whole ++ tail = c :: d :: cs) :
    d.isDigit ∨ d = '.' ∨ d = 'e' := by
  obtain ⟨c', more, rfl, -, rest⟩ := digits_cases ne digits
  have behind : more ++ tail = d :: cs := (List.cons.inj h).2
  cases more with
  | nil =>
      rw [List.nil_append] at behind
      exact .inr (stop d (by rw [behind]; rfl))
  | cons d' more =>
      rw [List.all_cons, (List.cons.inj behind).1, Bool.and_eq_true] at rest
      exact .inl rest.1

theorem splitRadix_digits : splitRadix (whole ++ tail) = (10, whole ++ tail) := by
  have plain : ∀ {d : Char} {cs : List Char}, ¬ (d.isDigit ∨ d = '.' ∨ d = 'e') →
      ¬ whole ++ tail = '0' :: d :: cs := fun hd eq => hd (second_digits ne digits stop eq)
  unfold splitRadix
  split <;> first | rfl | exact absurd ‹_› (plain (by decide))

theorem marked_digits {isMark isDigit : Char → Bool}
    (h : ∀ d : Char, isMark d → ¬ (d.isDigit ∨ d = '.' ∨ d = 'e')) :
    marked isMark isDigit (whole ++ tail) = 0 := by
  unfold marked
  split
  · next c cs eq =>
      have plain : isMark c = false := by
        cases mark : isMark c with
        | false => rfl
        | true => exact absurd (second_digits ne digits stop eq) (h c mark)
      simp [plain]
  · rfl

theorem natural_digits : natural (whole ++ tail) = whole.length := by
  have mark : ∀ {a b : Char}, ¬ (a.isDigit ∨ a = '.' ∨ a = 'e') → ¬ (b.isDigit ∨ b = '.' ∨ b = 'e') →
      ∀ d : Char, (d == a || d == b) = true → ¬ (d.isDigit ∨ d = '.' ∨ d = 'e') := by
    intro a b ha hb d h
    rw [Bool.or_eq_true, beq_iff_eq, beq_iff_eq] at h
    rcases h with rfl | rfl
    · exact ha
    · exact hb
  rw [natural, run_digits digits stop, marked_digits ne digits stop (mark (by decide) (by decide)),
    marked_digits ne digits stop (mark (by decide) (by decide)),
    marked_digits ne digits stop (mark (by decide) (by decide))]
  simp

end Digits

/-! ## Integers -/

theorem head?_nil (c : Char) : c ∈ ([] : List Char).head? → c = '.' ∨ c = 'e' := nofun

theorem int?_intText {v : Int} (h : isInt128 v) : int? (intText v) = some v := by
  have ne := natText_ne v.natAbs
  have digits := natText_digits v.natAbs
  obtain ⟨-, unsigned⟩ := sign_digits ne digits []
  have radix := splitRadix_digits ne digits head?_nil
  rw [List.append_nil] at unsigned radix
  by_cases negative : v < 0
  · have value : -(v.natAbs : Int) = v := by omega
    rw [intText, if_pos negative]
    simp only [int?, splitSign, radix, digits?_natText, bind, Option.bind, Bool.true_or, if_true,
      value, if_pos h]
  · have value : (v.natAbs : Int) = v := by omega
    rw [intText, if_neg negative]
    simp only [int?, unsigned, radix, digits?_natText, bind, Option.bind, Bool.or_self,
      Bool.false_eq_true, if_false, value, if_pos h]

theorem isInt128_of_int? {text : List Char} {v : Int} (h : int? text = some v) : isInt128 v := by
  have guarded : ∀ value : Int, (if isInt128 value then some value else none) = some v →
      isInt128 v := by
    intro value h
    split at h
    · next inside => exact Option.some.inj h ▸ inside
    · cases h
  unfold int? at h
  obtain ⟨magnitude, -, h⟩ := Option.bind_eq_some_iff.1 h
  exact guarded _ h

/-- Digits alone are no number with a point or a power. -/
theorem real_digits {whole : List Char} (ne : whole ≠ []) (digits : whole.all Char.isDigit) :
    real whole = 0 := by
  have run : run Char.isDigit whole = whole.length := run_eq_length digits
  have decimal : fractional Char.isDigit (fun c => c == 'e' || c == 'E') whole = 0 := by
    have rest : whole.drop whole.length = [] := List.drop_length
    have point : pointed Char.isDigit whole = 0 := by simp [pointed, run, rest]
    simp [fractional, point, run, rest, power]
  have hexadecimal : ∀ {d : Char} {cs : List Char}, whole = '0' :: d :: cs →
      (d == 'x' || d == 'X') = false := by
    intro d cs eq
    have second := second_digits ne digits head?_nil (by rw [List.append_nil]; exact eq)
    rw [Bool.or_eq_false_iff, beq_eq_false_iff_ne, beq_eq_false_iff_ne]
    constructor <;> (rintro rfl; revert second; decide)
  unfold real
  split
  · next d cs => simp [hexadecimal rfl, decimal]
  · exact decimal

theorem numeral_intText (v : Int) : numeral (intText v) = ((intText v).length, false) := by
  have ne := natText_ne v.natAbs
  have digits := natText_digits v.natAbs
  have signless := (sign_digits ne digits []).1
  have whole := natural_digits ne digits head?_nil
  have pointless := real_digits ne digits
  rw [List.append_nil] at signless whole
  by_cases negative : v < 0
  · simp [numeral, intText, negative, Shape.sign, whole, pointless, ne, Nat.add_comm]
  · simp [numeral, intText, negative, signless, whole, pointless, ne]

/-- An integer begins with a digit or a minus. -/
theorem intText_cons (v : Int) : ∃ c cs, intText v = c :: cs ∧ (c.isDigit ∨ c = '-') := by
  obtain ⟨c, cs, eq, digit, -⟩ := digits_cases (natText_ne v.natAbs) (natText_digits v.natAbs)
  by_cases negative : v < 0
  · exact ⟨'-', _, if_pos negative, .inr rfl⟩
  · exact ⟨c, cs, (if_neg negative).trans eq, .inl digit⟩

theorem exponent?_intText (v : Int) : exponent? (intText v) = some v := by
  have signless := (sign_digits (natText_ne v.natAbs) (natText_digits v.natAbs) []).2
  rw [List.append_nil] at signless
  by_cases negative : v < 0
  · have value : -(v.natAbs : Int) = v := by omega
    rw [intText, if_pos negative, exponent?, splitSign]
    simp only [digits?_natText]
    exact congrArg some value
  · have value : (v.natAbs : Int) = v := by omega
    rw [intText, if_neg negative, exponent?, signless]
    simp only [digits?_natText]
    exact congrArg some value

/-! ## Numbers with a point or a power of ten -/

/-- The letter of a power of ten. -/
def isPowerMark (c : Char) : Bool := c == 'e' || c == 'E'

theorem power_intText (v : Int) : power isPowerMark ('e' :: intText v) = 1 + (intText v).length := by
  have ne := natText_ne v.natAbs
  have digits := natText_digits v.natAbs
  have signless := (sign_digits ne digits []).1
  have run : run Char.isDigit (natText v.natAbs) = (natText v.natAbs).length := run_eq_length digits
  rw [List.append_nil] at signless
  by_cases negative : v < 0
  · simp [power, isPowerMark, intText, negative, Shape.sign, run, ne]
    omega
  · simp [power, isPowerMark, intText, negative, signless, run, ne]

/-- The text of a decimal with a point, a power of ten or both, and its value. -/
inductive RealText : List Char → ℚ → Prop where
  | mk {whole point fraction power : List Char} {n : Int} (ne : whole ≠ [])
      (digits : whole.all Char.isDigit) (places : fraction.all Char.isDigit)
      (pointed : point = [] ∧ fraction = [] ∨ point = '.' :: fraction ∧ fraction ≠ [])
      (powered : power = [] ∧ n = 0 ∨ power = 'e' :: intText n) (real : point ++ power ≠ []) :
      RealText (whole ++ (point ++ power))
        (Nat.ofDigitChars 10 (whole ++ fraction) 0 * 10 ^ (n - fraction.length))

namespace RealText

variable {body : List Char} {v : ℚ}

theorem power_stop {power : List Char} {n : Int} (powered : power = [] ∧ n = 0 ∨ power = 'e' :: intText n) :
    ∀ c ∈ power.head?, c = '.' ∨ c = 'e' := by
  rcases powered with ⟨rfl, -⟩ | rfl
  · exact head?_nil
  · rintro c ⟨⟩
    exact .inr rfl

theorem split (h : RealText body v) : ∃ whole tail, body = whole ++ tail ∧ whole ≠ [] ∧
    whole.all Char.isDigit ∧ (∀ c ∈ tail.head?, c = '.' ∨ c = 'e') ∧ tail ≠ [] := by
  obtain @⟨whole, point, fraction, power, n, ne, digits, places, pointed, powered, real⟩ := h
  refine ⟨whole, _, rfl, ne, digits, ?_, real⟩
  rcases pointed with ⟨rfl, -⟩ | ⟨rfl, -⟩
  · exact power_stop powered
  · rintro c ⟨⟩
    exact .inl rfl

theorem unsigned (h : RealText body v) :
    Shape.sign body = 0 ∧ splitSign body = (false, body) ∧ splitRadix body = (10, body) := by
  obtain ⟨whole, tail, rfl, ne, digits, stop, -⟩ := h.split
  obtain ⟨sign, split⟩ := sign_digits ne digits tail
  exact ⟨sign, split, splitRadix_digits ne digits stop⟩

theorem decimal? (h : RealText body v) {c : Nat} {e : Int} (value : (c : ℚ) * 10 ^ e = v) :
    decimal? body = Binary64.ofDecimal false c e := by
  have unsigned := h.unsigned.2.1
  obtain @⟨whole, point, fraction, power, n, ne, digits, places, pointed, powered, real⟩ := h
  have stop := power_stop powered
  have coefficient : digits? 10 (whole ++ fraction) =
      some (Nat.ofDigitChars 10 (whole ++ fraction) 0) :=
    digits?_eq (by simp [ne]) (by rw [List.all_append, digits, places]; rfl)
  rw [← Binary64.ofDecimal_congr false value.symm, Numeral.decimal?, unsigned]
  rcases pointed with ⟨rfl, rfl⟩ | ⟨rfl, -⟩
  · obtain ⟨taken, dropped⟩ := takeWhile_digits digits stop
    rw [List.nil_append]
    rcases powered with ⟨rfl, rfl⟩ | rfl
    · exact absurd rfl real
    · rw [List.append_nil] at coefficient
      simp [taken, dropped, coefficient, exponent?_intText]
  · have point : ∀ c ∈ ('.' :: (fraction ++ power)).head?, c = '.' ∨ c = 'e' := by
      rintro c ⟨⟩
      exact .inl rfl
    obtain ⟨taken, dropped⟩ := takeWhile_digits digits point
    obtain ⟨taken', dropped'⟩ := takeWhile_digits places stop
    rw [List.cons_append]
    simp only [taken, dropped, taken', dropped', coefficient]
    rcases powered with ⟨rfl, rfl⟩ | rfl
    · rfl
    · simp only [exponent?_intText]
      rfl

theorem numeral (h : RealText body v) : natural body < body.length ∧ real body = body.length := by
  have integral : natural body < body.length := by
    obtain ⟨whole, tail, rfl, ne, digits, stop, more⟩ := h.split
    rw [natural_digits ne digits stop, List.length_append]
    have := List.length_pos_iff.2 more
    omega
  refine ⟨integral, le_antisymm (munch_real.length body) ?_⟩
  rw [real_eq]
  refine le_trans (le_of_eq ?_) (Nat.le_max_left _ _)
  obtain @⟨whole, point, fraction, power, n, ne, digits, places, pointed, powered, real⟩ := h
  have stop := power_stop powered
  have exponent : Shape.power isPowerMark power = power.length := by
    rcases powered with ⟨rfl, -⟩ | rfl
    · rfl
    · rw [power_intText, List.length_cons, Nat.add_comm]
  have some : whole.length ≠ 0 := by simpa using ne
  have exact : fractional Char.isDigit isPowerMark (whole ++ (point ++ power)) =
      whole.length + (point ++ power).length := by
    rcases pointed with ⟨rfl, rfl⟩ | ⟨rfl, -⟩
    · have first := run_digits digits stop
      have pointless : pointed Char.isDigit (whole ++ power) = 0 := by
        rcases powered with ⟨rfl, -⟩ | rfl
        · exact absurd rfl real
        · simp [pointed, first]
      have more : power.length ≠ 0 := by simpa using real
      simp [fractional, pointless, first, exponent, some, more]
    · have dot : ∀ c ∈ ('.' :: (fraction ++ power)).head?, c = '.' ∨ c = 'e' := by
        rintro c ⟨⟩
        exact .inl rfl
      have first := run_digits digits dot
      have second := run_digits places stop
      have point : pointed Char.isDigit (whole ++ '.' :: (fraction ++ power)) =
          whole.length + 1 + fraction.length := by
        simp [pointed, first, second, ne]
      have behind : (whole ++ '.' :: (fraction ++ power)).drop (whole.length + 1 + fraction.length) =
          power := by
        rw [Nat.add_assoc, List.drop_length_add_append, Nat.add_comm 1, List.drop_succ_cons, List.drop_left]
      rw [List.cons_append]
      simp only [fractional, point, behind, exponent]
      simp
      omega
  exact (List.length_append ..).trans exact.symm

/-- The text ends in a digit. -/
theorem getLast? (h : RealText body v) : body.getLast? ≠ some '.' := by
  have digit : ∀ (front : List Char) {cs : List Char}, cs ≠ [] → cs.all Char.isDigit →
      (front ++ cs).getLast? ≠ some '.' := by
    intro front cs ne all last
    rw [List.getLast?_append_of_ne_nil _ ne] at last
    have := List.all_eq_true.1 all _ (List.mem_of_getLast? last)
    cases this
  obtain @⟨whole, point, fraction, power, n, ne, digits, places, pointed, powered, real⟩ := h
  rcases powered with ⟨rfl, -⟩ | rfl
  · rcases pointed with ⟨rfl, -⟩ | ⟨rfl, some⟩
    · exact absurd rfl real
    · have last := digit (whole ++ ['.']) some places
      simpa using last
  · have digits := natText_digits n.natAbs
    have last := digit (whole ++ (point ++ 'e' :: if n < 0 then ['-'] else []))
      (natText_ne n.natAbs) digits
    by_cases negative : n < 0
    · simpa [intText, negative] using last
    · simpa [intText, negative] using last

end RealText

/-! ## The text of a number -/

section Significand

open Decimal

variable (d : Decimal)

/-- The digits of a coefficient are its significand with zeros behind it. -/
theorem significand_zeros : ∃ k, Nat.toDigits 10 d.coefficient = d.significand ++ List.replicate k '0' := by
  refine ⟨((Nat.toDigits 10 d.coefficient).reverse.takeWhile (· == '0')).length, ?_⟩
  have zeros : (Nat.toDigits 10 d.coefficient).reverse.takeWhile (· == '0') =
      List.replicate ((Nat.toDigits 10 d.coefficient).reverse.takeWhile (· == '0')).length '0' :=
    List.eq_replicate_iff.2 ⟨rfl, fun c hc => beq_iff_eq.1 (List.all_eq_true.1 List.all_takeWhile c hc)⟩
  have parts := congrArg List.reverse
    (List.takeWhile_append_dropWhile (p := (· == '0')) (l := (Nat.toDigits 10 d.coefficient).reverse))
  rw [List.reverse_append, List.reverse_reverse, zeros, List.reverse_replicate] at parts
  exact parts.symm

theorem significand_digits : d.significand.all Char.isDigit := by
  obtain ⟨k, parts⟩ := significand_zeros d
  have all := natText_digits d.coefficient
  rw [natText, parts, List.all_append, Bool.and_eq_true] at all
  exact all.1

/-- The value of a decimal, from its significand and the place of its point. -/
theorem significand_value : (d.coefficient : ℚ) * 10 ^ d.exponent =
    Nat.ofDigitChars 10 d.significand 0 * 10 ^ (d.leading + 1 - d.significand.length) := by
  obtain ⟨k, parts⟩ := significand_zeros d
  have value := @Nat.ofDigitChars_ten_toDigits d.coefficient
  rw [parts, Nat.ofDigitChars_append, Nat.ofDigitChars_replicate_zero] at value
  have width : (width d.coefficient : Int) = d.significand.length + k := by
    rw [width, parts]
    simp
  rw [leading, width, ← value]
  push_cast
  rw [mul_comm ((10 : ℚ) ^ k), mul_assoc, ← zpow_natCast, ← zpow_add₀ (by norm_num)]
  congr 2
  ring

theorem significand_ne (h : d.coefficient ≠ 0) : d.significand ≠ [] := by
  intro none
  have value := significand_value d
  rw [none, Nat.ofDigitChars_nil, Nat.cast_zero, zero_mul] at value
  have ten : (10 : ℚ) ^ d.exponent ≠ 0 := zpow_ne_zero _ (by norm_num)
  exact h (by exact_mod_cast (mul_eq_zero.1 value).resolve_right ten)

end Significand

section Layouts

open Decimal

variable {digits : List Char}

theorem ofDigitChars_zeros (k : Nat) (cs : List Char) :
    Nat.ofDigitChars 10 (List.replicate k '0' ++ cs) 0 = Nat.ofDigitChars 10 cs 0 := by
  rw [Nat.ofDigitChars_append, Nat.ofDigitChars_replicate_zero, Nat.mul_zero]

theorem replicate_digits (k : Nat) : (List.replicate k '0').all Char.isDigit := by
  simp [show '0'.isDigit = true from rfl]

theorem all_take {p : Char → Bool} {cs : List Char} (h : cs.all p) (n : Nat) : (cs.take n).all p :=
  List.all_eq_true.2 fun c hc => List.all_eq_true.1 h c (List.mem_of_mem_take hc)

theorem all_drop {p : Char → Bool} {cs : List Char} (h : cs.all p) (n : Nat) : (cs.drop n).all p :=
  List.all_eq_true.2 fun c hc => List.all_eq_true.1 h c (List.mem_of_mem_drop hc)

theorem realText_plain (ne : digits ≠ []) (all : digits.all Char.isDigit) (point : Int) :
    RealText (plain digits point) (Nat.ofDigitChars 10 digits 0 * 10 ^ (point - digits.length)) := by
  unfold plain
  split
  · next low =>
      -- a zero, the point, and zeros before the digits
      have places : (List.replicate (-point).toNat '0' ++ digits).all Char.isDigit := by
        rw [List.all_append, replicate_digits, all]; rfl
      have text : RealText (['0'] ++ ('.' :: (List.replicate (-point).toNat '0' ++ digits) ++ [])) _ :=
        .mk (by simp) rfl places (.inr ⟨rfl, by simp [ne]⟩) (.inl ⟨rfl, rfl⟩) (by simp)
      have value : Nat.ofDigitChars 10 (['0'] ++ (List.replicate (-point).toNat '0' ++ digits)) 0 =
          Nat.ofDigitChars 10 digits 0 := ofDigitChars_zeros ((-point).toNat + 1) digits
      rw [value] at text
      convert text using 1
      · simp
      · congr 2
        simp
        omega
  · next high =>
      by_cases short : digits.length ≤ point.toNat
      · -- all the digits, zeros up to the point, and a zero behind it
        have whole : (digits ++ List.replicate (point.toNat - digits.length) '0').all Char.isDigit := by
          rw [List.all_append, all, replicate_digits]; rfl
        have text : RealText ((digits ++ List.replicate (point.toNat - digits.length) '0') ++
            ('.' :: ['0'] ++ [])) _ :=
          .mk (by simp [ne]) whole rfl (.inr ⟨rfl, by simp⟩) (.inl ⟨rfl, rfl⟩) (by simp)
        convert text using 1
        · simp [List.take_of_length_le short, List.drop_of_length_le short]
        · rw [List.append_assoc, Nat.ofDigitChars_append, ← List.replicate_succ',
            Nat.ofDigitChars_replicate_zero]
          push_cast
          rw [mul_comm ((10 : ℚ) ^ _), mul_assoc, ← zpow_natCast, ← zpow_add₀ (by norm_num)]
          congr 2
          simp
          omega
      · -- the point among the digits
        have rest : digits.drop point.toNat ≠ [] := by simpa using short
        have text : RealText (digits.take point.toNat ++ ('.' :: digits.drop point.toNat ++ [])) _ :=
          .mk (by simp [ne]; omega) (all_take all _) (all_drop all _)
            (.inr ⟨rfl, rest⟩) (.inl ⟨rfl, rfl⟩) (by simp)
        rw [List.take_append_drop] at text
        convert text using 1
        · simp [show point.toNat - digits.length = 0 by omega, rest]
        · congr 2
          simp
          omega

theorem realText_scientific (ne : digits ≠ []) (all : digits.all Char.isDigit) (exponent : Int) :
    RealText (scientific false digits exponent)
      (Nat.ofDigitChars 10 digits 0 * 10 ^ (exponent + 1 - digits.length)) := by
  have mark : (if exponent < 0 then ['-'] else if false then ['+'] else []) ++
      Nat.toDigits 10 exponent.natAbs = intText exponent := by
    by_cases negative : exponent < 0 <;> simp [intText, natText, negative]
  have point : (if digits.length ≤ 1 then [] else '.' :: digits.drop 1) = [] ∧ digits.drop 1 = [] ∨
      (if digits.length ≤ 1 then [] else '.' :: digits.drop 1) = '.' :: digits.drop 1 ∧
        digits.drop 1 ≠ [] := by
    by_cases short : digits.length ≤ 1
    · exact .inl ⟨if_pos short, List.drop_of_length_le short⟩
    · exact .inr ⟨if_neg short, fun none => short (List.drop_eq_nil_iff.1 none)⟩
  have text := RealText.mk (by simp [ne]) (all_take all 1) (all_drop all 1) point
    (.inr (Eq.refl ('e' :: intText exponent))) (by simp)
  rw [List.take_append_drop] at text
  convert text using 1
  · simp [scientific, ← mark]
  · congr 2
    have := List.length_pos_iff.2 ne
    simp
    omega

theorem realText_text (d : Decimal) (h : d.coefficient ≠ 0) :
    RealText (d.text sourceStyle) (d.coefficient * 10 ^ d.exponent) := by
  have ne := significand_ne d h
  have all := significand_digits d
  rw [significand_value d, Decimal.text]
  split
  · exact realText_plain ne all _
  · exact realText_scientific ne all _

end Layouts

section Floats

open Binary64

variable (x : Binary64)

theorem ofDecimal_neg (c : Nat) (e : Int) :
    ofDecimal true c e = (ofDecimal false c e).map Binary64.neg := by
  unfold ofDecimal
  split
  · rfl
  · split
    · rfl
    · split
      · rfl
      · unfold ofRatio
        dsimp only
        split <;> rfl

/-- The sign of a text. -/
def minus (negative : Bool) : List Char := if negative then ['-'] else []

/-- The text of a number is a sign and a decimal that reads as the number. -/
theorem floatText_eq : ∃ body, floatText x = minus x.negative ++ body ∧ ∃ (c : Nat) (e : Int),
    RealText body (c * 10 ^ e) ∧ ofDecimal x.negative c e = some x := by
  unfold floatText Binary64.text
  by_cases zero : x.rank = 0
  · refine ⟨"0.0".toList, if_pos zero, 0, 0, ?_, ?_⟩
    · have text : RealText (['0'] ++ ('.' :: ['0'] ++ [])) _ :=
        .mk (by simp) rfl rfl (.inr ⟨rfl, by simp⟩) (.inl ⟨rfl, rfl⟩) (by simp)
      have value : Nat.ofDigitChars 10 (['0'] ++ ['0']) 0 = 0 := rfl
      convert text using 1
      · rfl
      · rw [value, Nat.cast_zero, zero_mul, zero_mul]
    · obtain ⟨negative, rank, rank_lt⟩ := x
      obtain rfl : rank = 0 := zero
      rfl
  · have reads := of_decide_eq_true (Decimal.readsAs_shortest x sourceStyle.tie zero)
    refine ⟨_, if_neg zero, _, _, realText_text _ fun none => zero ?_, reads⟩
    rw [none, ofDecimal, if_pos rfl] at reads
    rw [← Option.some.inj reads]

/-- A number begins with a digit or a minus. -/
theorem floatText_cons : ∃ c cs, floatText x = c :: cs ∧ (c.isDigit ∨ c = '-') := by
  obtain ⟨body, eq, _, _, real, -⟩ := floatText_eq x
  obtain ⟨whole, tail, rfl, ne, digits, -⟩ := real.split
  obtain ⟨c, cs, rfl, digit, -⟩ := digits_cases ne digits
  cases negative : x.negative with
  | true => exact ⟨'-', _, by rw [eq, negative]; rfl, .inr rfl⟩
  | false => exact ⟨c, _, by rw [eq, negative]; rfl, .inl digit⟩

/-- A number reads back from its text. -/
theorem float?_floatText : float? (floatText x) = some x := by
  obtain ⟨body, eq, c, e, real, reads⟩ := floatText_eq x
  obtain ⟨-, unsigned, radix⟩ := real.unsigned
  have decimal := real.decimal? rfl
  rw [eq, float?]
  cases negative : x.negative with
  | true =>
      rw [negative, ofDecimal_neg] at reads
      simp only [minus, if_true, List.cons_append, List.nil_append, splitSign, radix, decimal]
      exact reads
  | false =>
      rw [negative] at reads
      simp only [minus, Bool.false_eq_true, if_false, List.nil_append, unsigned, radix, decimal]
      exact reads

theorem numeral_floatText : numeral (floatText x) = ((floatText x).length, true) := by
  obtain ⟨body, eq, c, e, real, -⟩ := floatText_eq x
  obtain ⟨sign, -, -⟩ := real.unsigned
  obtain ⟨integral, whole⟩ := real.numeral
  rw [eq]
  cases x.negative with
  | true => simp [numeral, minus, Shape.sign, whole, integral, Nat.add_comm]
  | false => simp [numeral, minus, sign, whole, integral]

theorem getLast?_floatText : (floatText x).getLast? ≠ some '.' := by
  obtain ⟨body, eq, c, e, real, -⟩ := floatText_eq x
  obtain ⟨whole, tail, rfl, ne, -⟩ := real.split
  have last := real.getLast?
  rw [eq, List.getLast?_append_of_ne_nil _ (by simp [ne])]
  exact last

end Floats

end Mim.Numeral
