import Mim.Proofs.Forward
import Mim.Proofs.Watch.Grammar

/-! # Recovery keeps what is watched

What is broken is recorded and passed over up to a boundary. So what is kept where
something is recorded, and where a token is read that may be passed over, is kept by the
loops that go on after an error.
-/

namespace Mim

open Grammar

variable {α : Type} {k : Nat} {H : Reading → Prop} {inWhere : Bool}

/-- Inside a `where` its end is no token to pass over. -/
def Token.isPassed (inWhere : Bool) (t : Token) : Prop := inWhere → t ≠ .keyword .end_

/-- What holds on when an error is recorded, or a token read that may be passed over. -/
structure Reading.Survives (inWhere : Bool) (H : Reading → Prop) : Prop where
  report {s : Reading} (e : ParseError) : H s → H (s.report e)
  advance {s : Reading} {t : Token} : H s → s.token? = some t → t.isPassed inWhere → H s.advance

namespace Reading.Survives

theorem skip (h : Survives inWhere H) {s : Reading} (hs : H s) : H (s.skip inWhere) := by
  induction hn : s.rest.length generalizing s with
  | zero => rwa [skip_of_none (token?_eq_none.2 (List.eq_nil_of_length_eq_zero hn))]
  | succ n ih =>
      obtain ⟨t, next⟩ : ∃ t, s.token? = some t := by
        cases hr : s.rest with
        | nil => simp [hr] at hn
        | cons i rest => exact ⟨i.token, by simp [token?, hr]⟩
      have length := length_advance next
      rw [skip_of_some next]
      split
      · next token =>
          subst token
          exact h.advance hs next fun _ => by simp
      · split
        · exact hs
        · next apart inside =>
            have passed : t.isPassed inWhere := by
              rintro rfl rfl
              exact inside rfl
            exact ih (h.advance hs next passed) (by omega)

/-- Where nothing has been read of what is broken, its first token is passed over. -/
theorem recover (h : Survives inWhere H) {s start : Reading} {t : Token} (hs : H s)
    (behind : s.rest <:+ start.rest) (next : start.token? = some t) (passed : t.isPassed inWhere) :
    H (s.recover inWhere start).2 := by
  rw [recover_eq]
  apply h.skip
  split
  · next same =>
      have ahead : s.token? = some t := by
        rw [token?, behind.eq_of_length same]
        exact next
      exact h.advance hs ahead passed
  · exact hs

/-- A step that recovers from its errors, at a token that may be passed over. -/
theorem recovering (h : Survives inWhere H) {p : Parser α} (hp : Keeps H H H p)
    (forward : Forward k p) :
    Keeps H (fun s => H s ∧ ∃ t, s.token? = some t ∧ t.isPassed inWhere) H
      (recovering inWhere p) where
  ok {s s' r} hs run := by
    obtain ⟨held, t, next, passed⟩ := hs
    cases first : p s with
    | ok a s₁ =>
        rw [recovering_ok first] at run
        cases run
        exact hp.ok held first
    | error e s₁ =>
        rw [recovering_error first] at run
        cases run
        have rest : (s₁.report e).rest <:+ s.rest := by
          rw [rest_report]
          exact (forward.error first).rest
        exact h.recover (h.report e (hp.error held first)) rest next passed
  error {s s' e} _ run := by
    cases first : p s with
    | ok a s₁ =>
        rw [recovering_ok first] at run
        cases run
    | error e s₁ =>
        rw [recovering_error first] at run
        cases run

theorem declarationOrError (h : Survives inWhere H) {p : Parser Decl} (hp : Keeps H H H p)
    (forward : Forward k p) :
    Keeps H (fun s => H s ∧ ∃ t, s.token? = some t ∧ t.isPassed inWhere) H
      (declarationOrError inWhere p) := by
  refine (h.recovering hp forward).bind fun r => ?_
  cases r with
  | ok d => exact Keeps.pure id
  | error place => exact Keeps.pure id

end Reading.Survives

namespace Grammar

variable {g : Nested}

/-- A part of a `where` is a semicolon or a declaration, and there is none at its end. -/
theorem wherePart?_cases {r : Option (Option Decl)} {s s' : Reading}
    (run : wherePart? g s = .ok r s') :
    r = none ∧ (s.token? = none ∨ s.token? = some (.keyword .end_)) ∧ s' = s ∨
    r = some none ∧ s.token? = some (.symbol .semicolon) ∧ s' = s.advance ∨
    ∃ t d, s.token? = some t ∧ t ≠ .keyword .end_ ∧ r = some (some d) ∧
      declarationOrError true (declaration g) s = .ok d s' := by
  cases next : s.token? with
  | none =>
      rw [wherePart?_end (.inl next)] at run
      cases run
      exact .inl ⟨rfl, .inl rfl, rfl⟩
  | some t =>
      by_cases apart : t = .symbol .semicolon
      · subst apart
        rw [wherePart?_semicolon next] at run
        cases run
        exact .inr (.inl ⟨rfl, rfl, rfl⟩)
      · by_cases inside : t = .keyword .end_
        · subst inside
          rw [wherePart?_end (.inr next)] at run
          cases run
          exact .inl ⟨rfl, .inr rfl, rfl⟩
        · rw [wherePart?_declaration next apart inside] at run
          obtain ⟨d, s₁, first, done⟩ := bind_ok.1 run
          obtain ⟨rfl, rfl⟩ := pure_ok.1 done
          exact .inr (.inr ⟨t, d, rfl, inside, rfl, first⟩)

/-- The parts of a `where` keep what its declarations keep. -/
theorem repeats_wherePart? (h : Reading.Survives true H) (hd : Keeps H H H (declaration g))
    (forward : Forward k (declaration g)) {parts : List (Option Decl)} {s s' : Reading}
    (repeats : Repeats (wherePart? g) s parts s') (hs : H s) :
    H s' ∧ (s'.token? = none ∨ s'.token? = some (.keyword .end_)) := by
  induction repeats with
  | stop run =>
      rcases wherePart?_cases run with ⟨-, next, rfl⟩ | ⟨⟨⟩, -⟩ | ⟨_, _, _, _, ⟨⟩, _⟩
      exact ⟨hs, next⟩
  | more run _ ih =>
      apply ih
      rcases wherePart?_cases run with ⟨⟨⟩, -⟩ | ⟨-, next, rfl⟩ | ⟨t, d, next, inside, -, first⟩
      · exact h.advance hs next fun _ => by simp
      · exact (h.declarationOrError hd forward).ok ⟨hs, t, next, fun _ => inside⟩ first

end Grammar

end Mim
