import Mim.Lexeme.Shape

/-! # Shapes are taken as far as possible

Each shape takes as many characters as have it, all of one alphabet. So what is taken does
not change when the text is cut behind it, nor when a text goes on with another character.
-/

namespace Mim.Shape

/-- A shape of characters of an alphabet that is taken as far as possible: as much of a
    longer text is taken, unless more is. -/
structure Munch (A : Char → Bool) (f : List Char → Nat) : Prop where
  within (cs : List Char) : f cs ≤ run A cs
  stable (cs ds : List Char) : f (cs ++ ds) ≤ cs.length → f cs = f (cs ++ ds)

theorem run_cons (p : Char → Bool) (c : Char) (cs : List Char) :
    run p (c :: cs) = if p c then run p cs + 1 else 0 := by
  cases h : p c <;> simp [run, h]

theorem run_le_length (p : Char → Bool) (cs : List Char) : run p cs ≤ cs.length :=
  (List.takeWhile_sublist _).length_le

theorem run_mono {p q : Char → Bool} (h : ∀ c, p c → q c) (cs : List Char) : run p cs ≤ run q cs := by
  induction cs with
  | nil => exact Nat.le_refl _
  | cons c cs ih =>
      rw [run_cons, run_cons]
      split
      · next hc =>
          rw [if_pos (h c hc)]
          omega
      · omega

/-- A run stops at a character that is not in it. -/
theorem run_append_cons {p : Char → Bool} {d : Char} (hd : p d = false) (cs ds : List Char) :
    run p (cs ++ d :: ds) = run p cs := by
  induction cs with
  | nil => simp [hd, run]
  | cons c cs ih => rw [List.cons_append, run_cons, run_cons, ih]

theorem run_append_of_all {p : Char → Bool} {cs : List Char} (h : cs.all p) (ds : List Char) :
    run p (cs ++ ds) = cs.length + run p ds := by
  induction cs with
  | nil => simp
  | cons c cs ih =>
      obtain ⟨hc, hcs⟩ : p c ∧ cs.all p := by simpa using h
      rw [List.cons_append, run_cons, if_pos hc, ih hcs, List.length_cons]
      omega

theorem run_eq_length {p : Char → Bool} {cs : List Char} (h : cs.all p) : run p cs = cs.length := by
  simpa [run] using run_append_of_all h []

/-- What a run takes is in it. -/
theorem all_take_run (p : Char → Bool) (cs : List Char) {n : Nat} (h : n ≤ run p cs) :
    (cs.take n).all p := by
  induction cs generalizing n with
  | nil => simp
  | cons c cs ih =>
      cases n with
      | zero => rfl
      | succ n =>
          rw [run_cons] at h
          split at h
          · next hc =>
              rw [List.take_succ_cons, List.all_cons, hc, ih (by omega)]
              rfl
          · omega

/-- A run that reaches past a text takes all of it. -/
theorem run_eq_length_of_lt {p : Char → Bool} {cs ds : List Char}
    (h : cs.length ≤ run p (cs ++ ds)) : run p cs = cs.length := by
  have all := all_take_run p (cs ++ ds) h
  rw [List.take_left' rfl] at all
  exact run_eq_length all

namespace Munch

variable {A B : Char → Bool} {f g : List Char → Nat} {cs ds : List Char}

theorem length (h : Munch A f) (cs : List Char) : f cs ≤ cs.length :=
  Nat.le_trans (h.within cs) (run_le_length A cs)

theorem nil (h : Munch A f) : f [] = 0 := Nat.le_zero.1 (h.length [])

theorem mono (h : Munch A f) (sub : ∀ c, A c → B c) : Munch B f :=
  ⟨fun cs => Nat.le_trans (h.within cs) (run_mono sub cs), h.stable⟩

/-- What is taken does not change where the text goes on with another character. -/
theorem stop (h : Munch A f) {d : Char} (hd : A d = false) (cs ds : List Char) :
    f (cs ++ d :: ds) = f cs := by
  refine (h.stable cs (d :: ds) ?_).symm
  have within := h.within (cs ++ d :: ds)
  rw [run_append_cons hd] at within
  exact Nat.le_trans within (run_le_length A cs)

/-- What is taken does not change where the text is cut behind it. -/
theorem cut (h : Munch A f) (n : Nat) (hn : f cs ≤ n) : f (cs.take n) = f cs := by
  by_cases long : n ≤ cs.length
  · have stable := h.stable (cs.take n) (cs.drop n)
    rw [List.take_append_drop, List.length_take_of_le long] at stable
    exact stable hn
  · rw [List.take_of_length_le (by omega)]

theorem zero : Munch A fun _ => 0 := ⟨fun _ => Nat.zero_le _, fun _ _ _ => rfl⟩

theorem runs : Munch A (run A) where
  within _ := Nat.le_refl _
  stable cs ds h := by
    induction cs with
    | nil => exact (Nat.le_zero.1 h).symm
    | cons c cs ih =>
        rw [List.cons_append, run_cons] at h ⊢
        rw [run_cons]
        split at h
        · next hc =>
            rw [if_pos hc, if_pos hc, ih (by simpa using h)]
        · next hc => rw [if_neg hc, if_neg hc]

theorem max (hf : Munch A f) (hg : Munch A g) : Munch A fun cs => max (f cs) (g cs) where
  within cs := Nat.max_le.2 ⟨hf.within cs, hg.within cs⟩
  stable cs ds h := by
    rw [hf.stable cs ds (Nat.le_trans (Nat.le_max_left ..) h),
      hg.stable cs ds (Nat.le_trans (Nat.le_max_right ..) h)]

/-- A shape and what may stand behind it. -/
theorem andThen {k : Nat → List Char → Nat} (hf : Munch A f) (hk : ∀ n, Munch A (k n)) :
    Munch A fun cs => f cs + k (f cs) (cs.drop (f cs)) where
  within cs := by
    have all := all_take_run A cs (hf.within cs)
    have whole := run_append_of_all all (cs.drop (f cs))
    rw [List.take_append_drop, List.length_take_of_le (hf.length cs)] at whole
    have := (hk (f cs)).within (cs.drop (f cs))
    omega
  stable cs ds h := by
    have first : f (cs ++ ds) ≤ cs.length := by omega
    have same := hf.stable cs ds first
    rw [← same] at h first ⊢
    rw [List.drop_append_of_le_length first] at h ⊢
    have short := @List.length_drop _ (f cs) cs
    rw [(hk (f cs)).stable (cs.drop (f cs)) ds (by omega)]

/-- A shape and what must stand behind it, where nothing can stand behind the end. -/
theorem andMust {k : Nat → List Char → Nat} (hf : Munch A f) (hk : ∀ n, Munch A (k n))
    (short : ∀ {cs ds}, cs.length < f (cs ++ ds) → k (f cs) (cs.drop (f cs)) = 0) :
    Munch A fun cs => if k (f cs) (cs.drop (f cs)) = 0 then 0 else f cs + k (f cs) (cs.drop (f cs)) where
  within cs := by
    have := (andThen hf hk).within cs
    split <;> omega
  stable cs ds h := by
    by_cases long : cs.length < f (cs ++ ds)
    · rw [if_pos (short long)]
      split at h
      · next none => rw [if_pos none]
      · omega
    · have whole := (andThen hf hk).stable cs ds
      have same := hf.stable cs ds (Nat.le_of_not_lt long)
      rw [← same] at h whole long ⊢
      rw [List.drop_append_of_le_length (Nat.le_of_not_lt long)] at h whole ⊢
      split at h
      · next none =>
          rw [if_pos none, (hk (f cs)).stable (cs.drop (f cs)) ds (by omega), if_pos none]
      · next some =>
          have := whole h
          rw [if_neg some, if_neg (by omega), this]

/-- As `andMust`, where the first is a run. -/
theorem runMust {p : Char → Bool} {k : Nat → List Char → Nat} (hp : ∀ c, p c → A c)
    (hk : ∀ n, Munch A (k n)) : Munch A fun cs =>
      if k (run p cs) (cs.drop (run p cs)) = 0 then 0
      else run p cs + k (run p cs) (cs.drop (run p cs)) :=
  andMust (runs.mono hp) hk fun long => by
    rw [run_eq_length_of_lt (Nat.le_of_lt long), List.drop_length, (hk _).nil]

theorem guarded (h : Munch A f) {c : Prop} [Decidable c] : Munch A fun cs => if c then f cs else 0 := by
  by_cases hc : c
  · simpa only [if_pos hc] using h
  · simpa only [if_neg hc] using zero

end Munch

/-- A character of a class and a shape behind it. -/
def behind (p : Char → Bool) (f : List Char → Nat) : List Char → Nat
  | [] => 0
  | c :: cs => if p c && f cs != 0 then 1 + f cs else 0

theorem behind_behind {p q : Char → Bool} {f : List Char → Nat} (c d : Char) (cs : List Char) :
    behind p (behind q f) (c :: d :: cs) = if p c && q d && f cs != 0 then 2 + f cs else 0 := by
  simp only [behind]
  by_cases h : q d && f cs != 0
  · cases p c with
    | false => simp
    | true =>
        simp_all
        omega
  · cases p c <;> simp_all

namespace Munch

variable {A : Char → Bool} {f g : List Char → Nat} {cs ds : List Char}

theorem behind {p : Char → Bool} (hf : Munch A f) (hp : ∀ c, p c → A c) : Munch A (behind p f) where
  within cs := by
    cases cs with
    | nil => exact Nat.le_refl _
    | cons c cs =>
        rw [Shape.behind, run_cons]
        split
        · next h =>
            have := hf.within cs
            rw [if_pos (hp c (by simp_all))]
            omega
        · omega
  stable cs ds h := by
    cases cs with
    | nil => exact (Nat.le_zero.1 h).symm
    | cons c cs =>
        rw [List.cons_append, Shape.behind] at h ⊢
        rw [Shape.behind]
        cases hp : p c with
        | false => rfl
        | true =>
            have same : f cs = f (cs ++ ds) := by
              refine hf.stable cs ds ?_
              by_cases none : f (cs ++ ds) = 0
              · omega
              · simp [hp, none] at h
                omega
            rw [same]

/-- A shape that begins with another, or a third where the other is not there. -/
theorem orElse {first : List Char → Nat} (h : Munch A first) (hf : Munch A f) (hg : Munch A g)
    (le : ∀ cs, first cs ≤ f cs) : Munch A fun cs => if first cs != 0 then f cs else g cs where
  within cs := by
    split
    · exact hf.within cs
    · exact hg.within cs
  stable {cs ds} hn := by
    by_cases none : first (cs ++ ds) = 0
    · have same := h.stable cs ds (by omega)
      simp only [none, same, bne_self_eq_false, Bool.false_eq_true, if_false] at hn ⊢
      exact hg.stable cs ds hn
    · simp only [bne_iff_ne, ne_eq, none, not_false_eq_true, if_true] at hn ⊢
      have same := h.stable cs ds (Nat.le_trans (le _) hn)
      rw [same, if_pos none]
      exact hf.stable cs ds hn

end Munch

/-- The characters of words and numerals. -/
def isJoint (c : Char) : Bool := isWordChar c || c == '.' || c == '+' || c == '-'

theorem isJoint_of_isWordChar (c : Char) (h : isWordChar c) : isJoint c := by
  simp [isJoint, h]

theorem isWordChar_of_isDigit (c : Char) (h : c.isDigit) : isWordChar c := by
  simp [isWordChar, Char.isAlphanum, h]

theorem isWordChar_of_isWordStart (c : Char) (h : isWordStart c) : isWordChar c := by
  revert h
  unfold isWordStart isWordChar Char.isAlphanum
  cases c.isAlpha <;> simp +contextual

section Numerals

theorem munch_word : Munch isWordChar word where
  within cs := by
    cases cs with
    | nil => exact Nat.le_refl _
    | cons c cs =>
        rw [word, run_cons]
        split
        · next h =>
            rw [if_pos (isWordChar_of_isWordStart c h)]
            omega
        · omega
  stable cs ds h := by
    cases cs with
    | nil => exact (Nat.le_zero.1 h).symm
    | cons c cs =>
        rw [List.cons_append, word] at h ⊢
        rw [word]
        split at h
        · next hc =>
            have short : run isWordChar (cs ++ ds) ≤ cs.length := by
              rw [List.length_cons] at h
              omega
            rw [if_pos hc, if_pos hc, Munch.runs.stable cs ds short]
        · next hc => rw [if_neg hc, if_neg hc]

theorem munch_sign : Munch isJoint sign where
  within cs := by
    unfold sign
    split
    · simp [run_cons, isJoint]
    · simp [run_cons, isJoint]
    · omega
  stable cs ds h := by
    cases cs with
    | nil => exact (Nat.le_zero.1 h).symm
    | cons c cs =>
        unfold sign
        split <;> simp_all

theorem marked_eq (isMark isDigit : Char → Bool) :
    marked isMark isDigit = behind (· == '0') (behind isMark (run isDigit)) := by
  funext cs
  unfold marked
  split
  · next c cs =>
      simp only [behind]
      split
      · simp_all
        omega
      · simp_all
  · next h =>
      obtain _ | ⟨c, _ | ⟨d, cs⟩⟩ := cs
      · rfl
      · simp [behind]
      · have : c ≠ '0' := fun hc => h d cs (by rw [hc])
        simp [behind, this]

variable {isDigit isMark : Char → Bool} (hd : ∀ c, isDigit c → isWordChar c)
  (hm : ∀ c, isMark c → isWordChar c)

include hd hm in
theorem munch_marked : Munch isJoint (marked isMark isDigit) := by
  rw [marked_eq]
  have digits : Munch isJoint (run isDigit) :=
    Munch.runs.mono fun c h => isJoint_of_isWordChar c (hd c h)
  refine (digits.behind fun c h => isJoint_of_isWordChar c (hm c h)).behind fun c h => ?_
  rw [beq_iff_eq.1 h]
  rfl

theorem isWordChar_of_isBinaryDigit (c : Char) (h : isBinaryDigit c) : isWordChar c := by
  unfold isBinaryDigit at h
  obtain h | h : c = '0' ∨ c = '1' := by simpa using h
  all_goals rw [h]; rfl

theorem isWordChar_of_isOctalDigit (c : Char) (h : isOctalDigit c) : isWordChar c := by
  refine isWordChar_of_isDigit c ?_
  unfold isOctalDigit at h
  simp only [Bool.and_eq_true, decide_eq_true_eq] at h
  simp only [Char.isDigit, Bool.and_eq_true, decide_eq_true_eq]
  exact ⟨h.1, Nat.le_trans h.2 (by decide)⟩

theorem isWordChar_of_isHexDigit (c : Char) (h : isHexDigit c) : isWordChar c := by
  have lower : 'a' ≤ c → c ≤ 'f' → c.isLower := fun h h' =>
    Bool.and_eq_true_iff.2 ⟨decide_eq_true h, decide_eq_true (Nat.le_trans h' (by decide))⟩
  have upper : 'A' ≤ c → c ≤ 'F' → c.isUpper := fun h h' =>
    decide_eq_true ⟨h, Nat.le_trans h' (by decide)⟩
  unfold isHexDigit at h
  simp only [Bool.or_eq_true, Bool.and_eq_true, decide_eq_true_eq] at h
  have alpha : c.isAlpha = (c.isUpper || c.isLower) := rfl
  unfold isWordChar Char.isAlphanum
  rw [alpha]
  rcases h with (h | h) | h
  · simp [h]
  · simp [lower h.1 h.2]
  · simp [upper h.1 h.2]

theorem isWordChar_of_eq {c d e : Char} (hd : isWordChar d) (he : isWordChar e)
    (h : c == d || c == e) : isWordChar c := by
  obtain rfl | rfl : c = d ∨ c = e := by simpa using h
  · exact hd
  · exact he

theorem munch_natural : Munch isJoint natural := by
  refine (Munch.runs.mono fun c h => ?_).max ((munch_marked ?_ ?_).max
    ((munch_marked ?_ ?_).max (munch_marked ?_ ?_)))
  · exact isJoint_of_isWordChar c (isWordChar_of_isDigit c h)
  · exact isWordChar_of_isBinaryDigit
  · exact fun c h => isWordChar_of_eq rfl rfl h
  · exact isWordChar_of_isOctalDigit
  · exact fun c h => isWordChar_of_eq rfl rfl h
  · exact isWordChar_of_isHexDigit
  · exact fun c h => isWordChar_of_eq rfl rfl h

/-- A sign or none, and digits. -/
def exponent (cs : List Char) : Nat :=
  let digits := run Char.isDigit (cs.drop (sign cs))
  if digits = 0 then 0 else sign cs + digits

theorem munch_exponent : Munch isJoint exponent := by
  refine Munch.andMust (k := fun _ => run Char.isDigit) munch_sign (fun _ => Munch.runs.mono fun c h =>
    isJoint_of_isWordChar c (isWordChar_of_isDigit c h)) fun {cs ds} long => ?_
  cases cs with
  | nil => rfl
  | cons c cs =>
      have le : sign (c :: cs ++ ds) ≤ 1 := by
        unfold sign
        split <;> omega
      rw [List.length_cons] at long
      omega

theorem power_eq (isMark : Char → Bool) : power isMark = behind isMark exponent := by
  funext cs
  cases cs with
  | nil => rfl
  | cons c cs =>
      simp only [power, behind, exponent]
      by_cases none : run Char.isDigit (cs.drop (sign cs)) = 0
      · simp [none]
      · cases isMark c <;> simp [none, Nat.add_assoc]

include hm in
theorem munch_power : Munch isJoint (power isMark) := by
  rw [power_eq]
  exact munch_exponent.behind fun c h => isJoint_of_isWordChar c (hm c h)

/-- A point and the digits behind it; if none were in front of it, there must be some. -/
def point (isDigit : Char → Bool) (whole : Nat) : List Char → Nat
  | '.' :: cs => if whole == 0 && run isDigit cs == 0 then 0 else 1 + run isDigit cs
  | _ => 0

include hd in
theorem munch_point (whole : Nat) : Munch isJoint (point isDigit whole) where
  within cs := by
    unfold point
    split
    · next cs =>
        rw [run_cons, if_pos (show isJoint '.' from rfl)]
        have := run_mono (fun c h => isJoint_of_isWordChar c (hd c h)) cs
        split <;> omega
    · omega
  stable cs ds h := by
    cases cs with
    | nil => exact (Nat.le_zero.1 h).symm
    | cons c cs =>
        by_cases hc : c = '.'
        · subst hc
          have same : run isDigit cs = run isDigit (cs ++ ds) := by
            refine Munch.runs.stable cs ds ?_
            simp only [List.cons_append, point, List.length_cons] at h
            split at h
            · simp_all
            · simp_all
              omega
          simp only [List.cons_append, point, same]
        · simp [point, hc]

theorem pointed_eq (isDigit : Char → Bool) : pointed isDigit = fun cs =>
    let whole := run isDigit cs
    let rest := point isDigit whole (cs.drop whole)
    if rest = 0 then 0 else whole + rest := by
  funext cs
  simp only [pointed]
  split
  · next rest h =>
      rw [h, point]
      split
      · rfl
      · rw [if_neg (by omega)]
        omega
  · next h =>
      rw [point]
      · rfl
      · exact h

include hd in
theorem munch_pointed : Munch isJoint (pointed isDigit) := by
  rw [pointed_eq]
  exact Munch.runMust (fun c h => isJoint_of_isWordChar c (hd c h)) fun n => munch_point hd n

theorem fractional_eq (isDigit isMark : Char → Bool) : fractional isDigit isMark = fun cs =>
    if pointed isDigit cs != 0 then
      pointed isDigit cs + power isMark (cs.drop (pointed isDigit cs))
    else
      let whole := run isDigit cs
      let rest := if whole ≠ 0 then power isMark (cs.drop whole) else 0
      if rest = 0 then 0 else whole + rest := by
  funext cs
  simp only [fractional]
  split
  · rfl
  · by_cases whole : run isDigit cs = 0
    · simp [whole]
    · by_cases rest : power isMark (cs.drop (run isDigit cs)) = 0 <;> simp [whole, rest]

include hd hm in
theorem munch_fractional : Munch isJoint (fractional isDigit isMark) := by
  rw [fractional_eq]
  refine (munch_pointed hd).orElse ((munch_pointed hd).andThen fun _ => munch_power hm)
    (Munch.runMust (k := fun n cs => if n ≠ 0 then power isMark cs else 0)
      (fun c h => isJoint_of_isWordChar c (hd c h)) fun _ => (munch_power hm).guarded)
    fun cs => Nat.le_add_right ..

theorem real_eq (cs : List Char) : real cs =
    max (fractional Char.isDigit (fun c => c == 'e' || c == 'E') cs)
      (behind (· == '0') (behind (fun c => c == 'x' || c == 'X')
        (fractional isHexDigit fun c => c == 'p' || c == 'P')) cs) := by
  unfold real
  split
  · next c rest =>
      simp only [behind]
      split
      · simp_all
        omega
      · simp_all
  · next h =>
      obtain _ | ⟨c, _ | ⟨d, cs⟩⟩ := cs
      · rfl
      · simp [behind]
      · have : c ≠ '0' := fun hc => h d cs (by rw [hc])
        simp [behind, this]

theorem munch_real : Munch isJoint real := by
  rw [show real = _ from funext real_eq]
  refine (munch_fractional isWordChar_of_isDigit fun c h => isWordChar_of_eq rfl rfl h).max
    (((munch_fractional isWordChar_of_isHexDigit fun c h => isWordChar_of_eq rfl rfl h).behind
      fun c h => ?_).behind fun c h => ?_)
  · exact isJoint_of_isWordChar c (isWordChar_of_eq rfl rfl h)
  · rw [beq_iff_eq.1 h]
    rfl

theorem numeral_within (cs : List Char) : (numeral cs).1 ≤ run isJoint cs := by
  have natural := (munch_sign.andThen fun _ => munch_natural).within cs
  have real := (munch_sign.andThen fun _ => munch_real).within cs
  simp only [numeral]
  split
  · exact real
  · split
    · exact natural
    · exact Nat.zero_le _

theorem numeral_stable (cs ds : List Char) (h : (numeral (cs ++ ds)).1 ≤ cs.length) :
    numeral cs = numeral (cs ++ ds) := by
  cases cs with
  | nil =>
      revert h
      simp only [List.nil_append, numeral]
      split
      · exact fun h => absurd h (by simp; omega)
      · split
        · next some => exact fun h => absurd h (by simp at some ⊢; omega)
        · exact fun _ => rfl
  | cons c cs =>
      have first : sign (c :: cs ++ ds) ≤ (c :: cs).length := by
        unfold sign
        split <;> simp
      have same := munch_sign.stable (c :: cs) ds first
      have length := @List.length_drop _ (sign (c :: cs)) (c :: cs)
      revert h
      simp only [numeral, ← same, List.drop_append_of_le_length (same ▸ first)]
      intro h
      have parts : natural ((c :: cs).drop (sign (c :: cs)) ++ ds) ≤
          ((c :: cs).drop (sign (c :: cs))).length ∧ real ((c :: cs).drop (sign (c :: cs)) ++ ds) ≤
          ((c :: cs).drop (sign (c :: cs))).length := by
        split at h
        · dsimp only at h
          omega
        · split at h
          · dsimp only at h
            omega
          · next some =>
              simp only [bne_iff_ne, ne_eq, Decidable.not_not] at some
              omega
      rw [munch_natural.stable _ _ parts.1, munch_real.stable _ _ parts.2]

/-- The numeral that a text begins with does not change where the text goes on with a
    character that is in no numeral. -/
theorem numeral_stop {d : Char} (hd : isJoint d = false) (cs ds : List Char) :
    numeral (cs ++ d :: ds) = numeral cs := by
  refine (numeral_stable _ _ ?_).symm
  have within := numeral_within (cs ++ d :: ds)
  rw [run_append_cons hd] at within
  exact Nat.le_trans within (run_le_length _ cs)

theorem numeral_cut {cs : List Char} (n : Nat) (hn : (numeral cs).1 ≤ n) :
    numeral (cs.take n) = numeral cs := by
  by_cases long : n ≤ cs.length
  · have stable := numeral_stable (cs.take n) (cs.drop n)
    rw [List.take_append_drop, List.length_take_of_le long] at stable
    exact stable hn
  · rw [List.take_of_length_le (by omega)]

/-- A run ends in a character of it. -/
theorem getElem?_run {p : Char → Bool} {cs : List Char} (h : run p cs ≠ 0) :
    ∃ c ∈ cs[run p cs - 1]?, p c := by
  have le := run_le_length p cs
  have all := all_take_run p cs (Nat.le_refl _)
  have lt : run p cs - 1 < cs.length := by omega
  refine ⟨cs[run p cs - 1], List.getElem?_eq_getElem lt, ?_⟩
  refine List.all_eq_true.1 all _ ?_
  rw [List.mem_take_iff_getElem]
  exact ⟨run p cs - 1, by omega, rfl⟩

/-- A number with a power of ten or two, or digits behind its point, does not end in the point. -/
theorem fractional_point {isDigit isMark : Char → Bool} (hd : isDigit '.' = false) {cs : List Char}
    (h : cs[fractional isDigit isMark cs - 1]? = some '.') :
    fractional isDigit isMark cs ≤ run isDigit cs + 1 := by
  have power_last : ∀ cs : List Char, power isMark cs ≠ 0 → cs[power isMark cs - 1]? ≠ some '.' := by
    intro cs h
    rw [power_eq] at h ⊢
    cases cs with
    | nil => exact absurd rfl h
    | cons c cs =>
        simp only [behind, exponent] at h ⊢
        by_cases none : run Char.isDigit (cs.drop (sign cs)) = 0
        · simp [none] at h
        · obtain ⟨e, he, digit⟩ := getElem?_run none
          cases hm : isMark c with
          | false => simp [hm] at h
          | true =>
              simp only [none, if_false, Bool.true_and, bne_iff_ne, ne_eq]
              rw [if_pos (by omega), show 1 + (sign cs + run Char.isDigit (cs.drop (sign cs))) - 1 =
                (sign cs + (run Char.isDigit (cs.drop (sign cs)) - 1)) + 1 by omega,
                List.getElem?_cons_succ, ← List.getElem?_drop, Option.mem_def.1 he]
              rintro ⟨⟩
              cases digit
  have pointed_last : ∀ cs : List Char, pointed isDigit cs ≠ 0 →
      cs[pointed isDigit cs - 1]? = some '.' → pointed isDigit cs ≤ run isDigit cs + 1 := by
    intro cs h last
    simp only [pointed] at h last ⊢
    split at h
    · next rest hrest =>
        simp only [hrest] at last ⊢
        split at h
        · exact absurd rfl h
        · next filled =>
            rw [if_neg filled] at last ⊢
            by_cases none : run isDigit rest = 0
            · omega
            · obtain ⟨e, he, digit⟩ := getElem?_run none
              have at_ : cs[run isDigit cs + 1 + run isDigit rest - 1]? = some e := by
                rw [← Option.mem_def.1 he, show run isDigit cs + 1 + run isDigit rest - 1 =
                  run isDigit cs + ((run isDigit rest - 1) + 1) by omega, ← List.getElem?_drop, hrest,
                  List.getElem?_cons_succ]
              rw [at_] at last
              rw [Option.some.inj last, hd] at digit
              cases digit
    · exact absurd rfl h
  simp only [fractional] at h ⊢
  split at h
  · next some =>
      rw [if_pos some]
      have some : pointed isDigit cs ≠ 0 := by simpa using some
      by_cases none : power isMark (cs.drop (pointed isDigit cs)) = 0
      · rw [none, Nat.add_zero] at h ⊢
        exact pointed_last cs some h
      · refine absurd ?_ (power_last _ none)
        rw [List.getElem?_drop, ← h]
        congr 1
        omega
  · next none =>
      rw [if_neg none]
      split at h
      · next some =>
          simp only [bne_iff_ne, ne_eq, Bool.and_eq_true] at some
          refine absurd ?_ (power_last _ some.2)
          rw [List.getElem?_drop, ← h]
          congr 1
          omega
      · next none' =>
          rw [if_neg none']
          omega

/-- One character is no number of this shape. -/
theorem fractional_ne_one (isDigit isMark : Char → Bool) (cs : List Char) :
    fractional isDigit isMark cs ≠ 1 := by
  have pointed_ne : pointed isDigit cs ≠ 1 := by
    simp only [pointed]
    split
    · split
      · omega
      · next filled =>
          simp only [Bool.and_eq_true, beq_iff_eq, not_and] at filled
          omega
    · omega
  simp only [fractional]
  split
  · next filled =>
      simp only [bne_iff_ne, ne_eq] at filled
      omega
  · split
    · next filled =>
        simp only [bne_iff_ne, ne_eq, Bool.and_eq_true] at filled
        omega
    · omega

theorem real_ne_one (cs : List Char) : real cs ≠ 1 := by
  have decimal := fractional_ne_one Char.isDigit (fun c => c == 'e' || c == 'E') cs
  have hex : behind (· == '0') (behind (fun c => c == 'x' || c == 'X')
      (fractional isHexDigit fun c => c == 'p' || c == 'P')) cs ≠ 1 := by
    obtain _ | ⟨c, _ | ⟨d, cs⟩⟩ := cs
    · simp [behind]
    · simp [behind]
    · rw [behind_behind]
      split <;> omega
  rw [real_eq]
  omega

/-- A number of this shape that ends in a point is an integer in front of it. -/
theorem natural_point {cs : List Char} (h : cs[real cs - 1]? = some '.') :
    real cs ≤ natural cs + 1 := by
  have decimal : run Char.isDigit cs ≤ natural cs := Nat.le_max_left ..
  rw [real_eq] at h ⊢
  by_cases hex : fractional Char.isDigit (fun c => c == 'e' || c == 'E') cs ≤
      behind (· == '0') (behind (fun c => c == 'x' || c == 'X')
        (fractional isHexDigit fun c => c == 'p' || c == 'P')) cs
  · rw [Nat.max_eq_right hex] at h ⊢
    obtain _ | ⟨c, _ | ⟨d, cs⟩⟩ := cs
    · exact Nat.zero_le _
    · simp [behind]
    · have ne_one := fractional_ne_one isHexDigit (fun c => c == 'p' || c == 'P') cs
      have marked : marked (fun c => c == 'x' || c == 'X') isHexDigit (c :: d :: cs) ≤
          natural (c :: d :: cs) :=
        Nat.le_trans (Nat.le_max_right ..) (Nat.le_trans (Nat.le_max_right ..) (Nat.le_max_right ..))
      rw [marked_eq, behind_behind] at marked
      rw [behind_behind] at h ⊢
      split at h
      · next filled =>
          simp only [Bool.and_eq_true, bne_iff_ne, ne_eq] at filled
          rw [show 2 + fractional isHexDigit (fun c => c == 'p' || c == 'P') cs - 1 =
            fractional isHexDigit (fun c => c == 'p' || c == 'P') cs - 1 + 1 + 1 by omega,
            List.getElem?_cons_succ, List.getElem?_cons_succ] at h
          have last := fractional_point (show isHexDigit '.' = false from rfl) h
          rw [if_pos (by simp [filled]; omega)] at marked
          rw [if_pos (by simp [filled])]
          omega
      · next none =>
          rw [if_neg none]
          omega
  · rw [Nat.max_eq_left (by omega)] at h ⊢
    have := fractional_point (show Char.isDigit '.' = false from rfl) h
    omega

/-- A numeral that ends in a point is an integer in front of it. -/
theorem numeral_point {cs : List Char} {n : Nat} (h : numeral cs = (n, true))
    (point : cs[n - 1]? = some '.') : numeral (cs.take (n - 1)) = (n - 1, false) := by
  simp only [numeral] at h
  split at h
  · next less =>
      obtain ⟨rfl, -⟩ := Prod.mk.inj h
      have ne_one : real (cs.drop (sign cs)) ≠ 1 := real_ne_one _
      rw [show sign cs + real (cs.drop (sign cs)) - 1 = sign cs + (real (cs.drop (sign cs)) - 1) by
        omega] at point ⊢
      rw [← List.getElem?_drop] at point
      have next := natural_point point
      have same : sign (cs.take (sign cs + (real (cs.drop (sign cs)) - 1))) = sign cs :=
        munch_sign.cut _ (Nat.le_add_right ..)
      have natural_eq := @Munch.cut _ _ (cs.drop (sign cs)) munch_natural (real (cs.drop (sign cs)) - 1)
        (by omega)
      have length := munch_real.length ((cs.drop (sign cs)).take (real (cs.drop (sign cs)) - 1))
      rw [List.length_take] at length
      simp only [numeral, same, List.drop_take, Nat.add_sub_cancel_left, natural_eq]
      rw [if_neg (by omega), if_pos (by simp; omega)]
      simp
      omega
  · split at h <;> cases (Prod.mk.inj h).2

end Numerals

end Mim.Shape
