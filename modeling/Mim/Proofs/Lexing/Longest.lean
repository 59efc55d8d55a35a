import Mim.Proofs.Lexing.Patterns
import Mim.Proofs.Lexing.Scan

/-! # Shapes take the longest word

Each shape takes the longest word of its pattern that the text begins with, and nothing where
the text begins with none.
-/

namespace Mim.Shape

/-- A shape takes the longest word of a pattern that a text begins with. -/
structure Longest (l : Language Char) (f : List Char → Nat) : Prop where
  filled : [] ∉ l
  matched (cs : List Char) : f cs ≠ 0 → cs.take (f cs) ∈ l
  most {w : List Char} : w ∈ l → ∀ cs, w.length ≤ f (w ++ cs)

namespace Longest

variable {l m : Language Char} {f g : List Char → Nat} {p : Char → Bool}

/-- What begins with a word of the pattern is not passed by. -/
theorem ne_zero (h : Longest l f) {w : List Char} (hw : w ∈ l) (cs : List Char) : f (w ++ cs) ≠ 0 := by
  have most := h.most hw cs
  intro none
  rw [none, Nat.le_zero, List.length_eq_zero_iff] at most
  exact h.filled (most ▸ hw)

theorem runs (p : Char → Bool) : Longest (Pattern.many1 p) (run p) where
  filled h := (Pattern.mem_many1.1 h).1 rfl
  matched cs h := by
    refine Pattern.mem_many1.2 ⟨?_, all_take_run p cs (Nat.le_refl _)⟩
    rintro none
    rcases List.take_eq_nil_iff.1 none with zero | rfl
    · exact h zero
    · exact h rfl
  most hw cs := by
    rw [run_append_of_all (Pattern.mem_many1.1 hw).2]
    exact Nat.le_add_right _ _

theorem max (hf : Longest l f) (hg : Longest m g) : Longest (l + m) fun cs => max (f cs) (g cs) where
  filled h := h.elim hf.filled hg.filled
  matched cs h := by
    rcases Nat.le_total (f cs) (g cs) with le | le
    · rw [Nat.max_eq_right le] at h ⊢
      exact .inr (hg.matched cs h)
    · rw [Nat.max_eq_left le] at h ⊢
      exact .inl (hf.matched cs h)
  most hw cs := by
    rcases hw with hw | hw
    · exact Nat.le_trans (hf.most hw cs) (Nat.le_max_left _ _)
    · exact Nat.le_trans (hg.most hw cs) (Nat.le_max_right _ _)

/-- A character of a class in front of a shape. -/
theorem behind (h : Longest l f) : Longest (Pattern.oneOf p * l) (behind p f) where
  filled := by
    intro nil
    obtain ⟨c, v, eq, -⟩ := Pattern.mem_oneOf_mul.1 nil
    cases eq
  matched cs some := by
    cases cs with
    | nil => exact absurd rfl some
    | cons c cs =>
        simp only [Shape.behind] at some ⊢
        split at some
        · next taken =>
            obtain ⟨hc, hcs⟩ : p c ∧ f cs ≠ 0 := by simpa using taken
            rw [if_pos taken, Nat.add_comm, List.take_succ_cons]
            exact Pattern.mem_oneOf_mul.2 ⟨c, _, rfl, hc, h.matched cs hcs⟩
        · exact absurd rfl some
  most hw cs := by
    obtain ⟨c, v, rfl, hc, hv⟩ := Pattern.mem_oneOf_mul.1 hw
    have most := h.most hv cs
    have some := h.ne_zero hv cs
    rw [List.cons_append, Shape.behind, if_pos (by simp [hc, some]), List.length_cons]
    omega

end Longest

/-- A shape behind a sign or none. -/
def signed (f : List Char → Nat) (cs : List Char) : Nat :=
  if f (cs.drop (sign cs)) = 0 then 0 else sign cs + f (cs.drop (sign cs))

theorem sign_of_ne {c : Char} (plus : c ≠ '+') (minus : c ≠ '-') (cs : List Char) : sign (c :: cs) = 0 := by
  unfold sign
  split
  · next eq => exact absurd (List.cons.inj eq).1 plus
  · next eq => exact absurd (List.cons.inj eq).1 minus
  · rfl

theorem take_sign (cs : List Char) : cs.take (sign cs) ∈ Pattern.sign := by
  unfold sign
  split
  · exact .inr ⟨'+', rfl, rfl⟩
  · exact .inr ⟨'-', rfl, rfl⟩
  · exact .inl rfl

/-- What is a sign is none where the pattern begins. -/
theorem Longest.signed {l : Language Char} {f : List Char → Nat} (h : Longest l f)
    (unsigned : Pattern.Heads (fun c => c != '+' && c != '-') l) :
    Longest (Pattern.sign * l) (signed f) where
  filled := by
    intro nil
    rcases Pattern.mem_sign_mul.1 nil with nil | ⟨c, v, eq, -⟩
    · exact h.filled nil
    · cases eq
  matched cs some := by
    unfold Shape.signed at some ⊢
    split at some
    · exact absurd rfl some
    · next taken =>
        have matched := h.matched (cs.drop (sign cs)) taken
        rw [if_neg taken, List.take_add]
        exact Language.append_mem_mul (take_sign cs) matched
  most {w} hw cs := by
    unfold Shape.signed
    rcases Pattern.mem_sign_mul.1 hw with hw | ⟨c, v, rfl, hc, hv⟩
    · have most := h.most hw cs
      have some := h.ne_zero hw cs
      obtain ⟨c, v, rfl, hc⟩ := unsigned w hw
      obtain ⟨plus, minus⟩ : c ≠ '+' ∧ c ≠ '-' := by simpa using hc
      rw [List.cons_append] at most some ⊢
      rw [sign_of_ne plus minus, List.drop_zero, if_neg some, Nat.zero_add]
      exact most
    · have most := h.most hv cs
      have some := h.ne_zero hv cs
      have one : sign (c :: (v ++ cs)) = 1 := by
        rcases hc with rfl | rfl <;> rfl
      rw [List.cons_append, one, List.drop_succ_cons, List.drop_zero, if_neg some, List.length_cons]
      omega

section Numerals

theorem longest_marked (isMark isDigit : Char → Bool) :
    Longest (Pattern.marked isMark isDigit) (marked isMark isDigit) := by
  rw [marked_eq]
  exact (Longest.runs isDigit).behind.behind

theorem longest_natural : Longest Pattern.natural natural :=
  (Longest.runs _).max ((longest_marked _ _).max ((longest_marked _ _).max (longest_marked _ _)))

theorem isDigit_unsigned {c : Char} (h : c.isDigit) : (c != '+' && c != '-') = true := by
  rw [Bool.and_eq_true, bne_iff_ne, bne_iff_ne]
  constructor
  · rintro rfl
    cases h
  · rintro rfl
    cases h

theorem longest_power (isMark : Char → Bool) : Longest (Pattern.power isMark) (power isMark) := by
  have exponent : Longest (Pattern.sign * Pattern.many1 Char.isDigit) exponent :=
    (Longest.runs _).signed ((Pattern.Heads.oneOf_mul _ _).mono fun _ => isDigit_unsigned)
  rw [power_eq]
  exact exponent.behind

variable {isDigit isMark : Char → Bool}

/-- Digits around a point are taken up to the last. -/
theorem pointed_append (point : isDigit '.' = false) {u v : List Char} (hu : u.all isDigit)
    (hv : v.all isDigit) (some : u ≠ [] ∨ v ≠ []) (cs : List Char) :
    pointed isDigit (u ++ '.' :: (v ++ cs)) = u.length + 1 + (v.length + run isDigit cs) := by
  have whole : run isDigit (u ++ '.' :: (v ++ cs)) = u.length := by
    rw [run_append_cons point, run_eq_length hu]
  have filled : ¬ (u.length = 0 ∧ v.length + run isDigit cs = 0) := by
    rintro ⟨front, back⟩
    have back : v.length = 0 := by omega
    exact some.elim (· (List.length_eq_zero_iff.1 front)) (· (List.length_eq_zero_iff.1 back))
  simp only [pointed, whole, List.drop_left, run_append_of_all hv]
  rw [if_neg (by simpa using filled)]

theorem longest_pointed (point : isDigit '.' = false) :
    Longest (Pattern.pointed isDigit) (pointed isDigit) where
  filled h := by
    obtain ⟨u, v, eq, -⟩ := Pattern.mem_pointed.1 h
    simp at eq
  matched cs some := by
    simp only [pointed] at some ⊢
    split at some
    · next rest hrest =>
        split at some
        · exact absurd rfl some
        · next filled =>
            have split : cs.take (run isDigit cs + 1 + run isDigit rest) =
                cs.take (run isDigit cs) ++ '.' :: rest.take (run isDigit rest) := by
              rw [Nat.add_assoc, List.take_add, hrest, Nat.add_comm 1, List.take_succ_cons]
            rw [if_neg filled, split]
            have shorter := run_le_length isDigit cs
            have shorter' := run_le_length isDigit rest
            refine Pattern.mem_pointed.2 ⟨_, _, rfl, all_take_run isDigit cs (Nat.le_refl _),
              all_take_run isDigit rest (Nat.le_refl _), ?_⟩
            rw [← List.length_pos_iff, ← List.length_pos_iff, List.length_take_of_le shorter,
              List.length_take_of_le shorter']
            simp only [Bool.and_eq_true, beq_iff_eq] at filled
            omega
    · exact absurd rfl some
  most hw cs := by
    obtain ⟨u, v, rfl, hu, hv, some⟩ := Pattern.mem_pointed.1 hw
    rw [List.append_assoc, List.cons_append, pointed_append point hu hv some, List.length_append,
      List.length_cons]
    omega

/-- The mark of a power is no digit and no point, so that it ends what is in front of it. -/
theorem longest_fractional (point : isDigit '.' = false) (mark : ∀ c, isMark c → isDigit c = false)
    (apart : isMark '.' = false) :
    Longest (Pattern.fractional isDigit isMark) (fractional isDigit isMark) where
  filled h := by
    rcases h with h | h
    · obtain ⟨u, hu, v, -, eq⟩ := Language.mem_mul.1 h
      exact (longest_pointed point).filled ((List.append_eq_nil_iff.1 eq).1 ▸ hu)
    · obtain ⟨u, hu, v, -, eq⟩ := Language.mem_mul.1 h
      exact (Longest.runs isDigit).filled ((List.append_eq_nil_iff.1 eq).1 ▸ hu)
  matched cs some := by
    simp only [fractional] at some ⊢
    split at some
    · next taken =>
        have matched := (longest_pointed point).matched cs (by simpa using taken)
        rw [if_pos taken, List.take_add]
        refine .inl (Language.append_mem_mul matched ?_)
        by_cases none : power isMark (cs.drop (pointed isDigit cs)) = 0
        · rw [none]
          exact .inl rfl
        · exact .inr ((longest_power isMark).matched _ none)
    · next none =>
        split at some
        · next taken =>
            obtain ⟨whole, exponent⟩ : run isDigit cs ≠ 0 ∧ power isMark (cs.drop (run isDigit cs)) ≠ 0 := by
              simpa using taken
            rw [if_neg none, if_pos taken, List.take_add]
            exact .inr (Language.append_mem_mul ((Longest.runs isDigit).matched cs whole)
              ((longest_power isMark).matched _ exponent))
        · exact absurd rfl some
  most {w} hw cs := by
    rcases hw with hw | hw
    · obtain ⟨u, hu, v, hv, rfl⟩ := Language.mem_mul.1 hw
      rcases hv with rfl | hv
      · have most := (longest_pointed point).most hu cs
        have some := (longest_pointed point).ne_zero hu cs
        rw [List.append_nil]
        simp only [fractional]
        rw [if_pos (by simpa using some)]
        omega
      · -- the power is taken from where the mark is
        have most := (longest_power isMark).most hv cs
        obtain ⟨c, v, rfl, hc, -⟩ := Pattern.mem_oneOf_mul.1 hv
        obtain ⟨a, b, rfl, ha, hb, some⟩ := Pattern.mem_pointed.1 hu
        have stop : run isDigit (c :: v ++ cs) = 0 := by
          rw [List.cons_append, run_cons, mark c hc]
          rfl
        have here := pointed_append point ha hb some (c :: v ++ cs)
        rw [stop] at here
        have split : a ++ '.' :: b ++ c :: v ++ cs = a ++ '.' :: (b ++ (c :: v ++ cs)) := by simp
        have rest : (a ++ '.' :: (b ++ (c :: v ++ cs))).drop (a.length + 1 + (b.length + 0)) =
            c :: v ++ cs := by
          rw [← List.cons_append, ← List.append_assoc]
          exact List.drop_left' (by simp; omega)
        simp only [fractional]
        rw [split, here, if_pos (by simp), rest]
        simp only [List.length_append, List.length_cons] at most ⊢
        omega
    · obtain ⟨u, hu, v, hv, rfl⟩ := Language.mem_mul.1 hw
      have most := (longest_power isMark).most hv cs
      have some := (longest_power isMark).ne_zero hv cs
      obtain ⟨filled, all⟩ := Pattern.mem_many1.1 hu
      obtain ⟨c, v, rfl, hc, -⟩ := Pattern.mem_oneOf_mul.1 hv
      have whole : run isDigit (u ++ (c :: v ++ cs)) = u.length := by
        rw [List.cons_append, run_append_cons (mark c hc), run_eq_length all]
      have none : pointed isDigit (u ++ (c :: v ++ cs)) = 0 := by
        have other : c ≠ '.' := by
          rintro rfl
          rw [apart] at hc
          cases hc
        simp only [pointed, whole, List.drop_left]
        split
        · next eq => exact absurd (List.cons.inj eq).1 other
        · rfl
      simp only [fractional]
      have both : (u.length != 0 && power isMark (c :: v ++ cs) != 0) = true := by
        rw [Bool.and_eq_true, bne_iff_ne, bne_iff_ne]
        exact ⟨mt List.length_eq_zero_iff.1 filled, some⟩
      rw [List.append_assoc, none, if_neg (by simp), whole, List.drop_left, if_pos both,
        List.length_append]
      omega

theorem longest_real : Longest (Pattern.decimal + Pattern.hexadecimal) real := by
  have decimal : Longest Pattern.decimal (fractional Char.isDigit fun c => c == 'e' || c == 'E') := by
    apply longest_fractional rfl
    · intro c hc
      rcases (by simpa using hc : c = 'e' ∨ c = 'E') with rfl | rfl <;> rfl
    · rfl
  have hexadecimal : Longest (Pattern.fractional isHexDigit fun c => c == 'p' || c == 'P')
      (fractional isHexDigit fun c => c == 'p' || c == 'P') := by
    apply longest_fractional rfl
    · intro c hc
      rcases (by simpa using hc : c = 'p' ∨ c = 'P') with rfl | rfl <;> rfl
    · rfl
  rw [show real = _ from funext real_eq]
  exact decimal.max hexadecimal.behind.behind

theorem unsigned_natural : Pattern.Heads (fun c => c != '+' && c != '-') Pattern.natural :=
  Pattern.Heads.natural.mono fun _ => isDigit_unsigned

theorem heads_real : Pattern.Heads (fun c => c.isDigit || c == '.')
    (Pattern.decimal + Pattern.hexadecimal) := by
  apply (Pattern.Heads.fractional _ _).add
  apply (Pattern.Heads.oneOf_mul _ _).mono
  intro c hc
  rw [beq_iff_eq.1 hc]
  rfl

theorem unsigned_real : Pattern.Heads (fun c => c != '+' && c != '-')
    (Pattern.decimal + Pattern.hexadecimal) := by
  apply heads_real.mono
  intro c hc
  rcases Bool.or_eq_true_iff.1 hc with digit | point
  · exact isDigit_unsigned digit
  · rw [beq_iff_eq.1 point]
    rfl

/-- A numeral is the longest number, whether it is an integer or not. -/
theorem longest_numeral :
    Longest (Pattern.sign * (Pattern.natural + (Pattern.decimal + Pattern.hexadecimal)))
      fun cs => (numeral cs).1 := by
  have signed : ∀ cs, (numeral cs).1 = signed (fun cs => max (natural cs) (real cs)) cs := by
    intro cs
    simp only [numeral, Shape.signed]
    split
    · rw [if_neg (by omega)]
      omega
    · split
      · next some =>
          simp only [bne_iff_ne, ne_eq] at some
          rw [if_neg (by omega)]
          omega
      · next none =>
          simp only [bne_iff_ne, ne_eq, Decidable.not_not] at none
          rw [if_pos (by omega)]
  rw [show (fun cs => (numeral cs).1) = _ from funext signed]
  exact (longest_natural.max longest_real).signed (unsigned_natural.add unsigned_real)

theorem numeral_natural {cs : List Char} {n : Nat} (h : numeral cs = (n, false)) (some : n ≠ 0) :
    cs.take n ∈ Pattern.sign * Pattern.natural := by
  have matched := (longest_natural.signed unsigned_natural).matched cs
  simp only [numeral] at h
  split at h
  · cases (Prod.mk.inj h).2
  · split at h
    · next filled =>
        obtain ⟨rfl, -⟩ := Prod.mk.inj h
        rw [signed, if_neg (by simpa using filled)] at matched
        exact matched some
    · exact absurd (Prod.mk.inj h).1.symm some

theorem numeral_real {cs : List Char} {n : Nat} (h : numeral cs = (n, true)) :
    cs.take n ∈ Pattern.sign * (Pattern.decimal + Pattern.hexadecimal) := by
  have matched := (longest_real.signed unsigned_real).matched cs
  simp only [numeral] at h
  split at h
  · next less =>
      obtain ⟨rfl, -⟩ := Prod.mk.inj h
      rw [signed, if_neg (by omega)] at matched
      exact matched (by omega)
  · split at h <;> cases (Prod.mk.inj h).2

end Numerals

theorem longest_word : Longest Pattern.word word where
  filled h := by
    obtain ⟨c, v, eq, -⟩ := Pattern.mem_oneOf_mul.1 h
    cases eq
  matched cs some := by
    cases cs with
    | nil => exact absurd rfl some
    | cons c cs =>
        rw [word] at some ⊢
        split at some
        · next start =>
            rw [if_pos start, Nat.add_comm, List.take_succ_cons]
            have all := all_take_run isWordChar cs (Nat.le_refl _)
            exact Pattern.mem_oneOf_mul.2 ⟨c, _, rfl, start, Pattern.mem_many.2 all⟩
        · exact absurd rfl some
  most hw cs := by
    obtain ⟨c, v, rfl, start, hv⟩ := Pattern.mem_oneOf_mul.1 hw
    rw [List.cons_append, word, if_pos start, run_append_of_all (Pattern.mem_many.1 hv), List.length_cons]
    omega

/-- A word ends where no character of it can follow. -/
theorem word_append_cons {w : List Char} (hw : w ∈ Pattern.word) {d : Char} (hd : isWordChar d = false)
    (cs : List Char) : word (w ++ d :: cs) = w.length := by
  obtain ⟨c, v, rfl, start, hv⟩ := Pattern.mem_oneOf_mul.1 hw
  rw [List.cons_append, word, if_pos start, run_append_cons hd, run_eq_length (Pattern.mem_many.1 hv),
    List.length_cons, Nat.add_comm]

section Strings

theorem append_mem_stringBody {part w : List Char} (hpart : part ∈ Pattern.stringPart)
    (hw : w ∈ Pattern.stringBody) : part ++ w ∈ Pattern.stringBody := by
  obtain ⟨parts, rfl, each⟩ := hw
  exact ⟨part :: parts, rfl, List.forall_mem_cons.2 ⟨hpart, each⟩⟩

/-- What is taken of a string is the inside of one. -/
theorem take_stringBody (cs : List Char) : cs.take (stringBody cs) ∈ Pattern.stringBody := by
  fun_induction stringBody cs with
  | case1 c cs ih =>
      rw [Nat.add_comm, List.take_succ_cons, List.take_succ_cons]
      exact append_mem_stringBody (.inr (Pattern.mem_just_mul.2 ⟨[c], rfl, c, rfl, rfl⟩)) ih
  | case2 => exact Language.nil_mem_kstar _
  | case3 c cs _ other ih =>
      rw [Nat.add_comm, List.take_succ_cons]
      have plain : (c != '"' && c != '\\') = true := by simpa using other
      exact append_mem_stringBody (.inl ⟨c, plain, rfl⟩) ih
  | case4 => exact Language.nil_mem_kstar _

/-- The inside of a string is passed through. -/
theorem stringBody_mem {w : List Char} (hw : w ∈ Pattern.stringBody) (cs : List Char) :
    stringBody (w ++ cs) = w.length + stringBody cs := by
  obtain ⟨parts, rfl, each⟩ := hw
  induction parts with
  | nil => simp
  | cons part parts ih =>
      have rest := ih fun y hy => each y (List.mem_cons_of_mem _ hy)
      rw [List.flatten_cons, List.append_assoc, List.length_append]
      rcases each part List.mem_cons_self with ⟨c, plain, rfl⟩ | pair
      · obtain ⟨quote, escape⟩ : c ≠ '"' ∧ c ≠ '\\' := by simpa using plain
        rw [List.singleton_append, stringBody_plain quote escape, rest, List.length_singleton]
        omega
      · obtain ⟨_, rfl, c, -, rfl⟩ := Pattern.mem_just_mul.1 pair
        have two : (['\\', c] : List Char).length = 2 := rfl
        rw [List.cons_append, List.singleton_append, stringBody, rest, two]
        omega

end Strings

end Mim.Shape
