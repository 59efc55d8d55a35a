import Mim.Proofs.Watch.Recovery

/-! # What is broken in a `where` stays in it

No rule but the one for the body of a `where` reads an end, and recovery stops in front of
one. So if the body holds no further `where`, it is read up to the first end, however broken
it is, and nothing behind that end is touched.
-/

namespace Mim

open Grammar

/-- What is left is the rest of a body that holds no `where` and no end, then the end `close`
    and all behind it. -/
def Reading.Inside (close : Item) (behind : List Item) (s : Reading) : Prop :=
  ∃ body, s.rest = body ++ close :: behind ∧
    ∀ i ∈ body, i.token ≠ .keyword .where_ ∧ i.token ≠ .keyword .end_

namespace Reading.Inside

variable {close : Item} {behind : List Item} {s : Reading}

theorem of_rest {s' : Reading} (rest : s'.rest = s.rest) (h : s.Inside close behind) :
    s'.Inside close behind := by
  unfold Inside
  rwa [rest]

/-- What comes next is the end itself or belongs to the body. -/
theorem token_cases (h : s.Inside close behind) :
    s.rest = close :: behind ∨ ∃ i rest, s.rest = i :: rest ∧ i.token ≠ .keyword .where_ ∧
      ∀ s' : Reading, s'.rest = rest → s'.Inside close behind := by
  obtain ⟨body, rest, none⟩ := h
  cases body with
  | nil => exact .inl rest
  | cons i body =>
      have ⟨first, others⟩ := List.forall_mem_cons.1 none
      exact .inr ⟨i, body ++ close :: behind, rest, first.1, fun s' hs' => ⟨body, hs', others⟩⟩

/-- At an end or where nothing is left, the whole body has been read. -/
theorem rest_eq (h : s.Inside close behind)
    (next : s.token? = none ∨ s.token? = some (.keyword .end_)) : s.rest = close :: behind := by
  obtain ⟨body, rest, none⟩ := h
  cases body with
  | nil => exact rest
  | cons i body =>
      have first := (none i List.mem_cons_self).2
      simp [token?, rest] at next
      exact absurd next first

variable (ends : close.token = .keyword .end_)
include ends

theorem advance (h : s.Inside close behind) {t : Token} (next : s.token? = some t)
    (inside : t ≠ .keyword .end_) : s.advance.Inside close behind := by
  rcases h.token_cases with rest | ⟨i, rest, split, -, shorter⟩
  · rw [token?, rest] at next
    exact absurd ((Option.some.inj next).symm.trans ends) inside
  · apply shorter
    rw [advance_eq split]

theorem token?_ne_where (h : s.Inside close behind) : s.token? ≠ some (.keyword .where_) := by
  rcases h.token_cases with rest | ⟨i, rest, split, other, -⟩
  · simp [token?, rest, ends]
  · simpa [token?, split] using other

theorem survives : Survives true (Inside close behind) where
  report e h := h.of_rest (rest_report e)
  advance h next inside := h.advance ends next (inside rfl)

end Reading.Inside

/-- A body is watched up to its end. -/
def Watch.inside (close : Item) (behind : List Item) (ends : close.token = .keyword .end_) :
    Watch where
  held := Reading.Inside close behind
  fresh := Reading.Inside close behind
  held_of_fresh h := h
  advance h next inside := h.advance ends next inside
  noted h := h.of_rest (Reading.rest_noted)
  ahead rules h _ _ _ := h.of_rest (Reading.rest_notes rules _ _)
  literal h next colon :=
    ((h.advance ends next (by simp)).advance ends colon (by simp)).of_rest (Reading.rest_note ..)
  annex h next _ := (h.advance ends next (by simp)).of_rest (Reading.rest_note ..)
  whereBody _ _ := {
    ok := by
      rintro _ _ _ ⟨s, h, next, rfl⟩
      exact absurd next (h.token?_ne_where ends)
    error := by
      rintro _ _ _ ⟨s, h, next, rfl⟩
      exact absurd next (h.token?_ne_where ends) }

/-- Whatever the body of a `where` holds besides a `where` and an end, it is read without
    failing, up to its end and no further. -/
theorem whereBody_contained {body behind : List Item} {close : Item} {s : Reading}
    (hs : s.rest = body ++ close :: behind) (ends : close.token = .keyword .end_)
    (within : ∀ i ∈ body, i.token ≠ .keyword .where_ ∧ i.token ≠ .keyword .end_) (n : Nat) :
    ∃ ds s', whereBody (Nested.upTo n) s = .ok ds s' ∧ s'.rest = behind ∧
      s'.lastEnd = close.span.stop := by
  have nested := (Watch.inside close behind ends).nests_upTo n
  have forward := (goesForward (g := Nested.upTo n) nests_self).declaration
  obtain ⟨parts, s₁, run, repeats⟩ := (wherePart?_loop (g := Nested.upTo n) nests_self).whole s
  have ⟨inside, next⟩ := repeats_wherePart? (Reading.Inside.survives ends) (declaration_reads nested)
    forward repeats ⟨body, hs, within⟩
  have rest := inside.rest_eq next
  have closing : s₁.token? = some (.keyword .end_) := by simp [Reading.token?, rest, ends]
  refine ⟨parts.filterMap id, s₁.advance, ?_, ?_, ?_⟩
  · exact bind_ok.2 ⟨parts, s₁, run, bind_ok.2 ⟨(), _, expect_ok.2 ⟨closing, rfl⟩, rfl⟩⟩
  · rw [Reading.advance_eq rest]
  · rw [Reading.advance_eq rest]

/-- Here the body is a broken binding, then brackets that are never closed. -/
theorem whereBody_contained_brackets :
    let item (t : Token) : Item := ⟨t, ⟨0, 1⟩, none⟩
    let body := [.keyword .let_, .symbol .assign, .symbol .leftParen, .symbol .leftBracket,
      .keyword .ret, .symbol .semicolon, .keyword .axm].map item
    let s : Reading := ⟨body ++ item (.keyword .end_) :: [item (.ident "x")], 0, []⟩
    (∀ i ∈ body, i.token ≠ .keyword .where_ ∧ i.token ≠ .keyword .end_) ∧
      ∃ ds s', whereBody (Nested.upTo 4) s = .ok ds s' ∧ s'.rest = [item (.ident "x")] ∧
        s'.lastEnd = 1 := by
  intro item body s
  have within : ∀ i ∈ body, i.token ≠ .keyword .where_ ∧ i.token ≠ .keyword .end_ := by decide
  have left : s.rest = body ++ item (.keyword .end_) :: [item (.ident "x")] := rfl
  exact ⟨within, whereBody_contained left rfl within 4⟩

end Mim
