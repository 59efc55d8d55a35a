import Mim.Proofs.Lexing
import Mim.Proofs.Lexing.Scan

/-! # Texts in parts

The lexemes of a text that is put together from two, or cut out of a longer one: they are
those of its parts, at other places.
-/

namespace Mim

open Shape Scan

/-- No broken text. -/
def Lexeme.AreClean (xs : List Lexeme) : Prop := ∀ x ∈ xs, ∀ reason, x.token ≠ .error reason

theorem Lexeme.areClean_iff {xs : List Lexeme} :
    AreClean xs ↔ ∀ t ∈ xs.map Lexeme.token, ∀ reason, t ≠ .error reason := by
  rw [List.forall_mem_map]
  rfl

section Blanks

/-- A blank is passed over by itself. -/
theorem lexemesFrom_blank {c : Char} (h : isBlank c) (place : Place) (cs : List Char) :
    lexemesFrom place (c :: cs) = lexemesFrom (place.advance c) cs := by
  rw [lexemesFrom_cons, first_blank h]
  change lexemesFrom (place.after (c :: cs.take (run isBlank cs))) (cs.drop (run isBlank cs)) = _
  cases cs with
  | nil => rfl
  | cons d cs =>
      by_cases hd : isBlank d
      · rw [lexemesFrom_cons, first_blank hd, run_cons, if_pos hd]
        rfl
      · rw [run_cons, if_neg hd]
        rfl

theorem lexemesFrom_blanks {bs : List Char} (h : bs.all isBlank) (place : Place) (cs : List Char) :
    lexemesFrom place (bs ++ cs) = lexemesFrom (place.after bs) cs := by
  induction bs generalizing place with
  | nil => rfl
  | cons b bs ih =>
      obtain ⟨hb, hbs⟩ : isBlank b ∧ bs.all isBlank := by simpa using h
      exact (lexemesFrom_blank hb place (bs ++ cs)).trans (ih hbs _)

end Blanks

namespace Scan

variable {place : Place} {c : Char} {cs : List Char}

/-- The first lexeme of a text is no broken text, if none of it is. -/
theorem isClean_of_areClean (h : Lexeme.AreClean (lexemesFrom place (c :: cs))) :
    (first c cs).IsClean := by
  intro reason broken
  rw [lexemesFrom_cons] at h
  exact h ⟨.error reason, place.position,
    ⟨place.offset, (place.after (c :: cs.take (first c cs).more)).offset⟩, (first c cs).beforeMember⟩
    (List.mem_append_left _ (by simp [lexeme?, broken])) reason rfl

end Scan

/-- Induction on a text by its lexemes. -/
theorem Scan.induction {P : List Char → Prop} (nil : P [])
    (cons : ∀ c cs, P (cs.drop (first c cs).more) → P (c :: cs)) : ∀ cs, P cs
  | [] => nil
  | c :: cs => cons c cs (Scan.induction nil cons (cs.drop (first c cs).more))
termination_by cs => cs.length
decreasing_by rw [List.length_drop, List.length_cons]; omega

/-- A lexeme is what is taken where it starts. -/
theorem lexemesFrom_taken {place : Place} {cs : List Char} {x : Lexeme} (h : x ∈ lexemesFrom place cs) :
    ∃ before c rest, cs = before ++ c :: rest ∧
      lexeme? (place.after before) (c :: rest.take (first c rest).more) (first c rest) = some x := by
  induction cs using Scan.induction generalizing place with
  | nil =>
      rw [lexemesFrom_nil] at h
      cases h
  | cons c cs ih =>
      rw [lexemesFrom_cons, List.mem_append, Option.mem_toList] at h
      rcases h with here | later
      · exact ⟨[], c, cs, rfl, here⟩
      · obtain ⟨before, d, rest, split, taken⟩ := ih later
        rw [← Place.after_append] at taken
        refine ⟨c :: cs.take (first c cs).more ++ before, d, rest, ?_, taken⟩
        rw [List.append_assoc, ← split, List.cons_append, List.take_append_drop]

/-- A newline divides a text without broken text from any text after it. -/
theorem lexemesFrom_newline (place : Place) (cs ds : List Char)
    (clean : Lexeme.AreClean (lexemesFrom place cs)) :
    lexemesFrom place (cs ++ '\n' :: ds) =
      lexemesFrom place cs ++ lexemesFrom ((place.after cs).advance '\n') ds := by
  induction cs using Scan.induction generalizing place with
  | nil =>
      rw [lexemesFrom_nil]
      exact lexemesFrom_blank (show isBlank '\n' from rfl) place ds
  | cons c cs ih =>
      replace ih := ih (place.after (c :: cs.take (first c cs).more))
      rw [← Place.after_append, List.cons_append, List.take_append_drop] at ih
      by_cases blank : isBlank c
      · rw [first_blank blank] at ih
        have all : (c :: cs.take (run isBlank cs)).all isBlank := by
          rw [List.all_cons, blank, all_take_run isBlank cs (Nat.le_refl _)]
          rfl
        have split : ∀ es : List Char, c :: cs ++ es =
            (c :: cs.take (run isBlank cs)) ++ (cs.drop (run isBlank cs) ++ es) := by
          intro es
          rw [← List.append_assoc, @List.cons_append _ _ (cs.take _), List.take_append_drop]
        have same := lexemesFrom_blanks all place (cs.drop (run isBlank cs))
        rw [List.cons_append, List.take_append_drop] at same
        rw [split, lexemesFrom_blanks all, same]
        rw [same] at clean
        exact ih clean
      · have taken := first_newline (by simpa using blank) (isClean_of_areClean clean) ds
        have le := first_le c cs
        rw [lexemesFrom_cons] at clean
        rw [List.cons_append, lexemesFrom_cons, taken, List.take_append_of_le_length le,
          List.drop_append_of_le_length le, lexemesFrom_cons,
          ih fun x hx => clean x (List.mem_append_right _ hx), List.append_assoc]

section Shift

/-- The same lexemes, `n` bytes further on. -/
def Lexeme.Shifted (n : Nat) (xs ys : List Lexeme) : Prop :=
  ys.map (fun x => (x.token, x.span)) = xs.map fun x => (x.token, x.span.shift n)

theorem Lexeme.Shifted.append {n : Nat} {xs xs' ys ys' : List Lexeme} (h : Shifted n xs ys)
    (h' : Shifted n xs' ys') : Shifted n (xs ++ xs') (ys ++ ys') := by
  unfold Shifted at *
  rw [List.map_append, List.map_append, h, h']

theorem Lexeme.Shifted.tokens {n : Nat} {xs ys : List Lexeme} (h : Shifted n xs ys) :
    ys.map Lexeme.token = xs.map Lexeme.token := by
  have tokens := congrArg (List.map Prod.fst) h
  rwa [List.map_map, List.map_map] at tokens

/-- A lexeme that is taken elsewhere. -/
theorem Scan.lexeme?_shifted {p q : Place} {n : Nat} (h : q.offset = p.offset + n) (word : List Char)
    {x y : Taken} (same : y.token? = x.token?) :
    Lexeme.Shifted n (lexeme? p word x).toList (lexeme? q word y).toList := by
  unfold lexeme?
  rw [same]
  cases x.token? with
  | none => rfl
  | some token =>
      simp only [Lexeme.Shifted, Option.map_some, Option.toList_some, List.map_cons, List.map_nil,
        Span.shift, Place.offset_after, h, Nat.add_right_comm]

/-- A text has the same lexemes wherever it stands. -/
theorem lexemesFrom_shifted {p q : Place} {n : Nat} (h : q.offset = p.offset + n) (cs : List Char) :
    Lexeme.Shifted n (lexemesFrom p cs) (lexemesFrom q cs) := by
  induction cs using Scan.induction generalizing p q with
  | nil =>
      rw [lexemesFrom_nil, lexemesFrom_nil]
      rfl
  | cons c cs ih =>
      rw [lexemesFrom_cons, lexemesFrom_cons]
      refine (lexeme?_shifted h _ rfl).append (ih ?_)
      rw [Place.offset_after, Place.offset_after, h, Nat.add_right_comm]

end Shift

section Cut

variable {p : Place} {cs : List Char} {xs ys : List Lexeme} {x : Lexeme}

/-- The lexemes from one on are those of what is left of the text there. -/
theorem lexemesFrom_from (h : lexemesFrom p cs = xs ++ x :: ys) : ∃ pre post, cs = pre ++ post ∧
      (p.after pre).offset = x.span.start ∧ lexemesFrom (p.after pre) post = x :: ys := by
  induction cs using Scan.induction generalizing p xs with
  | nil =>
      rw [lexemesFrom_nil] at h
      cases (List.append_eq_nil_iff.1 h.symm).2
  | cons c cs ih =>
      have whole := h
      rw [lexemesFrom_cons] at h
      have later : ∀ xs', lexemesFrom (p.after (c :: cs.take (first c cs).more))
          (cs.drop (first c cs).more) = xs' ++ x :: ys → ∃ pre post, c :: cs = pre ++ post ∧
            (p.after pre).offset = x.span.start ∧ lexemesFrom (p.after pre) post = x :: ys := by
        intro xs' h'
        obtain ⟨pre, post, split, start, rest⟩ := ih h'
        rw [← Place.after_append] at start rest
        refine ⟨c :: cs.take (first c cs).more ++ pre, post, ?_, start, rest⟩
        rw [List.append_assoc, ← split, List.cons_append, List.take_append_drop]
      cases taken : (first c cs).token? with
      | none =>
          rw [lexeme?, taken] at h
          exact later xs h
      | some token =>
          rw [lexeme?, taken] at h
          cases xs with
          | nil =>
              refine ⟨[], c :: cs, rfl, ?_, whole⟩
              rw [← (List.cons.inj h).1]
              rfl
          | cons x' xs => exact later xs (List.cons.inj h).2

/-- A point by itself. -/
theorem lexemesFrom_point (p : Place) : ∃ x, lexemesFrom p ['.'] = [x] ∧ x.token = .symbol .dot := by
  have taken : (first '.' []).token? = some (.symbol .dot) := by decide +kernel
  rw [lexemesFrom_cons, List.drop_nil, lexemesFrom_nil, lexeme?, taken]
  exact ⟨_, rfl, rfl⟩

theorem Lexeme.Shifted.refl (xs : List Lexeme) : Shifted 0 xs xs := rfl

theorem Lexeme.Shifted.trans {n : Nat} {zs : List Lexeme} (h : Shifted n xs ys) (h' : Shifted 0 ys zs) :
    Shifted n xs zs := by
  have same : zs.map (fun x => (x.token, x.span)) = ys.map fun x => (x.token, x.span) := h'
  exact same.trans h

/-- A text that is cut behind its first lexeme, and not behind a point that is given up. -/
theorem lexemesFrom_cut {c : Char} (clean : (first c cs).IsClean) (mid post : List Char)
    (split : cs.drop (first c cs).more = mid ++ post)
    (apart : (first c cs).beforeMember → mid.length ≠ 1) :
    Lexeme.Shifted 0 ((lexeme? p (c :: cs.take (first c cs).more) (first c cs)).toList ++
        lexemesFrom (p.after (c :: cs.take (first c cs).more)) mid)
      (lexemesFrom p (c :: cs.take (first c cs).more ++ mid)) := by
  have le := first_le c cs
  have whole : cs.take ((first c cs).more + mid.length) = cs.take (first c cs).more ++ mid := by
    rw [List.take_add, split, List.take_left' rfl]
  obtain ⟨more, token⟩ := first_cut (n := (first c cs).more + mid.length) clean (by omega)
    fun h => by have := apart h; omega
  rw [whole] at more token
  rw [List.cons_append, lexemesFrom_cons, more, List.take_left' (List.length_take_of_le le),
    List.drop_left' (List.length_take_of_le le)]
  exact (lexeme?_shifted rfl _ token).append (Lexeme.Shifted.refl _)

/-- The lexemes up to one are those of the text cut behind it, if it is no point, and the
    others are those of what is left. -/
theorem lexemesFrom_upTo (h : lexemesFrom p cs = xs ++ ys) (last : xs.getLast? = some x)
    (clean : Lexeme.AreClean xs) (point : ∀ x ∈ xs, x.token ≠ .symbol .dot) :
    ∃ mid post, cs = mid ++ post ∧ (p.after mid).offset = x.span.stop ∧
      Lexeme.Shifted 0 xs (lexemesFrom p mid) ∧ lexemesFrom (p.after mid) post = ys := by
  induction cs using Scan.induction generalizing p xs with
  | nil =>
      rw [lexemesFrom_nil] at h
      rw [(List.append_eq_nil_iff.1 h.symm).1] at last
      cases last
  | cons c cs ih =>
      rw [lexemesFrom_cons] at h
      cases taken : (first c cs).token? with
      | none =>
          rw [lexeme?, taken] at h
          obtain ⟨mid, post, split, stop, same, left⟩ := ih h last clean point
          have cut := lexemesFrom_cut (p := p) (fun reason broken => by simp [taken] at broken) mid
            post split fun member => by simpa [taken] using (first_beforeMember member).1
          rw [lexeme?, taken] at cut
          rw [← Place.after_append] at stop left
          refine ⟨_, post, ?_, stop, same.trans cut, left⟩
          rw [List.append_assoc, ← split, List.cons_append, List.take_append_drop]
      | some token =>
          rw [lexeme?, taken] at h
          cases xs with
          | nil => cases last
          | cons x' xs =>
              obtain ⟨hx', hxs⟩ := List.cons.inj h
              have head : (lexeme? p (c :: cs.take (first c cs).more) (first c cs)).toList = [x'] := by
                rw [lexeme?, taken, ← hx']
                rfl
              have cleanHead : (first c cs).IsClean := by
                intro reason broken
                refine clean x' List.mem_cons_self reason ?_
                rw [← hx']
                exact Option.some.inj (taken.symm.trans broken)
              cases xs with
              | nil =>
                  have cut := lexemesFrom_cut (p := p) cleanHead [] _ rfl fun _ => by simp
                  rw [head, lexemesFrom_nil] at cut
                  refine ⟨_, cs.drop (first c cs).more, ?_, ?_, cut, ?_⟩
                  · rw [List.append_nil, List.cons_append, List.take_append_drop]
                  · rw [← Option.some.inj last, ← hx', List.append_nil]
                    rfl
                  · rw [List.append_nil]
                    exact hxs
              | cons x'' xs =>
                  obtain ⟨mid, post, split, stop, same, left⟩ := ih hxs (by simpa using last)
                    (fun x hx => clean x (List.mem_cons_of_mem _ hx))
                    fun x hx => point x (List.mem_cons_of_mem _ hx)
                  have cut := lexemesFrom_cut (p := p) cleanHead mid post split fun member one => by
                    obtain ⟨-, rest, dot⟩ := first_beforeMember member
                    obtain ⟨d, rfl⟩ := List.length_eq_one_iff.1 one
                    rw [dot] at split
                    obtain ⟨y, hy, token⟩ := lexemesFrom_point (p.after (c :: cs.take (first c cs).more))
                    rw [← (List.cons.inj split).1, hy] at same
                    refine point x'' (by simp) ?_
                    rw [← token]
                    exact (congrArg Prod.fst (List.cons.inj same).1).symm
                  rw [head] at cut
                  rw [← Place.after_append] at stop left
                  refine ⟨_, post, ?_, stop, ?_, left⟩
                  · rw [List.append_assoc, ← split, List.cons_append, List.take_append_drop]
                  · exact (Lexeme.Shifted.append (Lexeme.Shifted.refl [x']) same).trans cut

end Cut

end Mim
