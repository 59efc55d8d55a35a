import Mathlib.Data.Nat.Digits.Defs
import Mathlib.Tactic.IntervalCases
import Mim.Lexeme

/-! # Integers are read exactly

The texts that stand for an integer, part by part, and the integer that each of them stands
for. Every other text is no number.
-/

namespace Mim.Numeral

/-- A digit of a radix, and its value. Letters of either case count from ten. -/
structure IsDigit (radix : Nat) (c : Char) (n : Nat) : Prop where
  small : n < radix
  char : c.toLower = Nat.digitChar n

/-- The signs that may stand in front of digits. -/
def signs : List (List Char) := [[], ['+'], ['-']]

/-- The marks of a radix, and the radix that each of them is a mark of. -/
def marks : List (List Char × Nat) :=
  [(['0', 'b'], 2), (['0', 'B'], 2), (['0', 'o'], 8), (['0', 'O'], 8), (['0', 'x'], 16), (['0', 'X'], 16)]

/-- A text that starts with a sign, if it can be read so. -/
structure Signed (text sign rest : List Char) : Prop where
  text_eq : text = sign ++ rest
  sign_mem : sign ∈ signs
  taken : sign = [] → rest.head? ≠ some '+' ∧ rest.head? ≠ some '-'

/-- A text that starts with the mark of a radix, if it can be read so. Without a mark the radix
    is ten. -/
structure Marked (text mark : List Char) (radix : Nat) (rest : List Char) : Prop where
  text_eq : text = mark ++ rest
  marked : (mark, radix) ∈ marks ∨ mark = [] ∧ radix = 10
  taken : mark = [] → ∀ m ∈ marks, ¬ m.1 <+: rest

/-- A text that is written as an integer: a sign, the mark of a radix, another sign, which must
    not follow a minus, and digits of the radix. -/
structure Written (text : List Char) where
  sign : List Char
  mark : List Char
  inner : List Char
  digits : List Char
  radix : Nat
  values : List Nat
  signed : Signed text sign (mark ++ (inner ++ digits))
  marked : Marked (mark ++ (inner ++ digits)) mark radix (inner ++ digits)
  inner_mem : inner ∈ signs
  inner_nil : sign = ['-'] → inner = []
  digits_ne : digits ≠ []
  areDigits : List.Forall₂ (IsDigit radix) digits values

/-- The value of the digits, negated by a minus. -/
def Written.value {text : List Char} (w : Written text) : Int :=
  let magnitude : Nat := Nat.ofDigits w.radix w.values.reverse
  if w.sign = ['-'] ∨ w.inner = ['-'] then -(magnitude : Int) else magnitude

section Digits

variable {radix n : Nat} {c : Char} {cs : List Char}

theorem toNat_digitChar (h : n < 16) :
    (Nat.digitChar n).toNat = if n < 10 then n + 48 else n + 87 := by
  interval_cases n <;> rfl

theorem isUpper_iff : c.isUpper ↔ 65 ≤ c.toNat ∧ c.toNat ≤ 90 := by
  change decide _ = true ↔ _
  simp [UInt32.le_iff_toNat_le]

theorem isLower_iff : c.isLower ↔ 97 ≤ c.toNat ∧ c.toNat ≤ 122 := by
  change (decide _ && decide _) = true ↔ _
  simp [UInt32.le_iff_toNat_le]

theorem isDigit_iff : c.isDigit ↔ 48 ≤ c.toNat ∧ c.toNat ≤ 57 := by
  simp [Char.isDigit, UInt32.le_iff_toNat_le]

theorem toNat_toLower : c.toLower.toNat = if c.isUpper then c.toNat + 32 else c.toNat := by
  unfold Char.toLower
  split
  · next upper =>
      have bound : 65 ≤ c.toNat ∧ c.toNat ≤ 90 := isUpper_iff.1 (decide_eq_true upper)
      have code : (c.val + ('a'.val - 'A'.val)).toNat = (c.toNat + 32) % 2 ^ 32 := UInt32.toNat_add ..
      rw [if_pos (isUpper_iff.2 bound)]
      change (c.val + ('a'.val - 'A'.val)).toNat = _
      omega
  · next upper => rw [if_neg fun h : c.isUpper => upper (of_decide_eq_true h)]

/-- A digit is told from its code. -/
theorem digit?_eq_some (small : radix ≤ 16) : digit? radix c = some n ↔ IsDigit radix c n := by
  have codes : IsDigit radix c n ↔ n < radix ∧ (if c.isUpper then c.toNat + 32 else c.toNat) =
      if n < 10 then n + 48 else n + 87 := by
    constructor
    · rintro ⟨lt, char⟩
      rw [← toNat_toLower, char, toNat_digitChar (by omega)]
      exact ⟨lt, rfl⟩
    · rintro ⟨lt, code⟩
      rw [← toNat_toLower, ← toNat_digitChar (by omega)] at code
      exact ⟨lt, Char.toNat_inj.1 code⟩
  have zero : '0'.toNat = 48 := rfl
  have lower : 'a'.toNat = 97 := rfl
  have upper : 'A'.toNat = 65 := rfl
  simp only [codes, digit?, isDigit_iff, isLower_iff, isUpper_iff, Option.ite_none_right_eq_some,
    Option.some_inj, zero, lower, upper]
  grind

theorem foldlM_digit? (small : radix ≤ 16) {start : Nat} :
    cs.foldlM (fun value c => (digit? radix c).map (value * radix + ·)) start = some n ↔
      ∃ values, List.Forall₂ (IsDigit radix) cs values ∧
        n = start * radix ^ values.length + Nat.ofDigits radix values.reverse := by
  induction cs generalizing start with
  | nil =>
      constructor
      · rintro ⟨⟩
        exact ⟨[], .nil, by simp⟩
      · rintro ⟨_, ⟨⟩, rfl⟩
        simp
  | cons c cs ih =>
      rw [List.foldlM_cons, Option.bind_eq_bind, Option.bind_map, Option.bind_eq_some_iff]
      simp only [Function.comp_apply, ih, digit?_eq_some small]
      constructor
      · rintro ⟨digit, isDigit, values, areDigits, rfl⟩
        refine ⟨digit :: values, .cons isDigit areDigits, ?_⟩
        rw [List.reverse_cons, Nat.ofDigits_append, Nat.ofDigits_singleton, List.length_reverse, List.length_cons]
        ring
      · rintro ⟨_, areDigits, rfl⟩
        cases areDigits with
        | @cons _ digit _ values isDigit areDigits =>
            refine ⟨digit, isDigit, values, areDigits, ?_⟩
            rw [List.reverse_cons, Nat.ofDigits_append, Nat.ofDigits_singleton, List.length_reverse, List.length_cons]
            ring

theorem digits?_eq_some (small : radix ≤ 16) : digits? radix cs = some n ↔
    cs ≠ [] ∧ ∃ values, List.Forall₂ (IsDigit radix) cs values ∧ n = Nat.ofDigits radix values.reverse := by
  cases cs with
  | nil => simp [digits?]
  | cons c cs =>
      rw [digits?, foldlM_digit? small]
      simp

/-- No sign is a digit. -/
theorem IsDigit.ne_sign (h : IsDigit radix c n) (small : radix ≤ 16) : c ≠ '+' ∧ c ≠ '-' := by
  have code := congrArg Char.toNat h.char
  rw [toNat_digitChar (Nat.lt_of_lt_of_le h.small small)] at code
  constructor
  · rintro rfl
    have plus : ('+').toLower.toNat = 43 := rfl
    grind
  · rintro rfl
    have minus : ('-').toLower.toNat = 45 := rfl
    grind

end Digits

section Parts

variable {text sign mark rest : List Char} {radix : Nat}

theorem splitSign_unsigned (plus : text.head? ≠ some '+') (minus : text.head? ≠ some '-') :
    splitSign text = (false, text) := by
  unfold splitSign
  split
  · exact absurd rfl minus
  · exact absurd rfl plus
  · rfl

theorem Signed.splitSign_eq (h : Signed text sign rest) :
    splitSign text = (decide (sign = ['-']), rest) := by
  obtain ⟨rfl, mem, taken⟩ := h
  simp only [signs, List.mem_cons, List.not_mem_nil, or_false] at mem
  rcases mem with rfl | rfl | rfl
  · exact splitSign_unsigned (taken rfl).1 (taken rfl).2
  · rfl
  · rfl

theorem exists_signed (text : List Char) : ∃ sign rest, Signed text sign rest := by
  by_cases plus : text.head? = some '+'
  · obtain ⟨rest, rfl⟩ := List.head?_eq_some_iff.1 plus
    exact ⟨['+'], rest, rfl, by decide, nofun⟩
  by_cases minus : text.head? = some '-'
  · obtain ⟨rest, rfl⟩ := List.head?_eq_some_iff.1 minus
    exact ⟨['-'], rest, rfl, by decide, nofun⟩
  exact ⟨[], text, rfl, by decide, fun _ => ⟨plus, minus⟩⟩

theorem Marked.splitRadix_eq (h : Marked text mark radix rest) : splitRadix text = (radix, rest) := by
  obtain ⟨rfl, mem | ⟨rfl, rfl⟩, taken⟩ := h
  · simp only [marks, List.mem_cons, List.not_mem_nil, or_false, Prod.mk.injEq] at mem
    rcases mem with ⟨rfl, rfl⟩ | ⟨rfl, rfl⟩ | ⟨rfl, rfl⟩ | ⟨rfl, rfl⟩ | ⟨rfl, rfl⟩ | ⟨rfl, rfl⟩ <;> rfl
  · have no : ∀ m ∈ marks, ∀ cs, rest ≠ m.1 ++ cs := fun m mem cs eq => taken rfl m mem ⟨cs, eq.symm⟩
    rw [List.nil_append]
    unfold splitRadix
    split
    · exact absurd rfl (no (['0', 'b'], 2) (by decide) _)
    · exact absurd rfl (no (['0', 'B'], 2) (by decide) _)
    · exact absurd rfl (no (['0', 'o'], 8) (by decide) _)
    · exact absurd rfl (no (['0', 'O'], 8) (by decide) _)
    · exact absurd rfl (no (['0', 'x'], 16) (by decide) _)
    · exact absurd rfl (no (['0', 'X'], 16) (by decide) _)
    · rfl

theorem exists_marked (text : List Char) : ∃ mark radix rest, Marked text mark radix rest := by
  by_cases marked : ∃ m ∈ marks, m.1 <+: text
  · obtain ⟨⟨mark, radix⟩, mem, rest, rfl⟩ := marked
    have filled : ∀ m ∈ marks, m.1 ≠ [] := by decide
    exact ⟨mark, radix, rest, rfl, .inl mem, fun nil => absurd nil (filled _ mem)⟩
  · exact ⟨[], 10, text, rfl, .inr ⟨rfl, rfl⟩, fun _ m mem start => marked ⟨m, mem, start⟩⟩

theorem Marked.radix_le (h : Marked text mark radix rest) : radix ≤ 16 := by
  have bounded : ∀ m ∈ marks, m.2 ≤ 16 := by decide
  rcases h.marked with mem | ⟨-, rfl⟩
  · exact bounded _ mem
  · decide

end Parts

theorem isInt128_iff {v : Int} : isInt128 v ↔ -2 ^ 127 ≤ v ∧ v ≤ 2 ^ 127 - 1 := by
  rw [isInt128, Bool.and_eq_true, decide_eq_true_eq, decide_eq_true_eq]
  omega

/-- How an integer is read from its parts. -/
theorem int?_parts {text sign mark inner digits : List Char} {radix : Nat} {v : Int}
    (signed : Signed text sign (mark ++ (inner ++ digits)))
    (marked : Marked (mark ++ (inner ++ digits)) mark radix (inner ++ digits))
    (innerSign : if sign = ['-'] then inner = [] else Signed (inner ++ digits) inner digits) :
    int? text = some v ↔ ∃ n, digits? radix digits = some n ∧
      v = (if sign = ['-'] ∨ inner = ['-'] then -(n : Int) else n) ∧ isInt128 v := by
  have split : (if decide (sign = ['-']) then (false, inner ++ digits) else splitSign (inner ++ digits)) =
      (decide (inner = ['-']), digits) := by
    by_cases minus : sign = ['-']
    · rw [if_pos minus] at innerSign
      simp [minus, innerSign]
    · rw [if_neg minus] at innerSign
      simp [minus, innerSign.splitSign_eq]
  simp only [int?, signed.splitSign_eq, marked.splitRadix_eq, split]
  rw [Option.bind_eq_bind, Option.bind_eq_some_iff]
  refine exists_congr fun n => and_congr_right fun _ => ?_
  simp only [Option.ite_none_right_eq_some, Option.some_inj, Bool.or_eq_true, decide_eq_true_eq]
  grind

/-- Where a text has a value, it divides into the parts of an integer. -/
theorem exists_written {text : List Char} {v : Int} (h : int? text = some v) :
    ∃ w : Written text, v = w.value ∧ isInt128 v := by
  obtain ⟨sign, body, signed⟩ := exists_signed text
  obtain ⟨mark, radix, rest, marked⟩ := exists_marked body
  obtain rfl := marked.text_eq
  obtain ⟨inner, digits, rfl, mem, nil, innerSign⟩ : ∃ inner digits, rest = inner ++ digits ∧
      inner ∈ signs ∧ (sign = ['-'] → inner = []) ∧
      if sign = ['-'] then inner = [] else Signed (inner ++ digits) inner digits := by
    by_cases minus : sign = ['-']
    · exact ⟨[], rest, rfl, by decide, fun _ => rfl, by rw [if_pos minus]⟩
    · obtain ⟨inner, digits, second⟩ := exists_signed rest
      obtain rfl := second.text_eq
      exact ⟨inner, digits, rfl, second.sign_mem, fun h => absurd h minus, by rwa [if_neg minus]⟩
  obtain ⟨n, read, rfl, bounded⟩ := (int?_parts signed marked innerSign).1 h
  obtain ⟨ne, values, areDigits, rfl⟩ := (digits?_eq_some marked.radix_le).1 read
  exact ⟨⟨sign, mark, inner, digits, radix, values, signed, marked, mem, nil, ne, areDigits⟩, rfl, bounded⟩

/-- A text in the parts of an integer has its value, if that is not out of range. -/
theorem Written.int?_eq {text : List Char} (w : Written text) (h : isInt128 w.value) :
    int? text = some w.value := by
  have small := w.marked.radix_le
  have innerSign : if w.sign = ['-'] then w.inner = [] else
      Signed (w.inner ++ w.digits) w.inner w.digits := by
    split
    · next minus => exact w.inner_nil minus
    · refine ⟨rfl, w.inner_mem, fun _ => ?_⟩
      cases digits : w.digits with
      | nil => exact absurd digits w.digits_ne
      | cons c cs =>
          obtain ⟨n, isDigit⟩ : ∃ n, IsDigit w.radix c n := by
            have areDigits := w.areDigits
            rw [digits] at areDigits
            generalize w.values = values at areDigits
            cases areDigits with
            | cons isDigit _ => exact ⟨_, isDigit⟩
          simp [isDigit.ne_sign small]
  exact (int?_parts w.signed w.marked innerSign).2
    ⟨_, (digits?_eq_some small).2 ⟨w.digits_ne, w.values, w.areDigits, rfl⟩, rfl, h⟩

theorem int?_eq_some {text : List Char} {v : Int} :
    int? text = some v ↔ ∃ w : Written text, v = w.value ∧ -2 ^ 127 ≤ v ∧ v ≤ 2 ^ 127 - 1 := by
  constructor
  · intro h
    obtain ⟨w, value, bounded⟩ := exists_written h
    exact ⟨w, value, isInt128_iff.1 bounded⟩
  · rintro ⟨w, rfl, bounded⟩
    exact w.int?_eq (isInt128_iff.2 bounded)

end Mim.Numeral

namespace Mim

open Numeral

/-- A text is read as an integer exactly where it is a sign, the mark of a radix, another sign
    and digits of the radix, and its value fits in 128 bits. Then it is read as that value; a
    text that has none is an invalid number, as a whole. -/
theorem integers_are_exact (text : List Char) :
    (∀ v, Scan.intToken text = .literal (.int v) ↔
      ∃ w : Written text, v = w.value ∧ -2 ^ 127 ≤ v ∧ v ≤ 2 ^ 127 - 1) ∧
    (Scan.intToken text = .error (.invalidNumber (String.ofList text)) ↔
      ¬ ∃ w : Written text, -2 ^ 127 ≤ w.value ∧ w.value ≤ 2 ^ 127 - 1) := by
  cases value : int? text with
  | some v =>
      have token : Scan.intToken text = .literal (.int v) := by rw [Scan.intToken, value]
      obtain ⟨w, rfl, bounded⟩ := int?_eq_some.1 value
      rw [token]
      refine ⟨fun v' => ⟨?_, ?_⟩, nofun, fun none => absurd ⟨w, bounded⟩ none⟩
      · rintro ⟨⟩
        exact ⟨w, rfl, bounded⟩
      · intro written
        have same := int?_eq_some.2 written
        rw [value] at same
        cases same
        rfl
  | none =>
      have token : Scan.intToken text = .error (.invalidNumber (String.ofList text)) := by
        rw [Scan.intToken, value]
      have unwritten (v : Int) : ¬ ∃ w : Written text, v = w.value ∧ -2 ^ 127 ≤ v ∧ v ≤ 2 ^ 127 - 1 := by
        intro written
        rw [int?_eq_some.2 written] at value
        cases value
      rw [token]
      refine ⟨fun v => ⟨nofun, fun written => absurd written (unwritten v)⟩, fun _ => ?_, fun _ => rfl⟩
      rintro ⟨w, bounded⟩
      exact unwritten w.value ⟨w, rfl, bounded⟩

/-- A sign on each side of the mark, a digit of another radix, a mark alone, and both ends of
    the range. -/
example : (["+0x-fF", "0b12", "-0x", "-0x+5", "170141183460469231731687303715884105728",
    "-170141183460469231731687303715884105728"].map fun text => int? text.toList) =
    [some (-255), none, none, none, none, some (-2 ^ 127)] := by
  decide +kernel

end Mim
