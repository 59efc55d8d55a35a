import Mim.Proofs.Spells.Rules

/-! # Loops that spell

What a loop reads is written one element after the other. The proofs are by induction on
what the loop does; when the result is read again, the loop is unrolled once for each
element.
-/

namespace Mim

open Simulation (Anywhere)
open Grammar Token Mode

variable {α : Type} [Spanned α] {F : List Token → List Token → Prop} {m : Mode}
  {P : Option Token → Prop} {T : α → List Token}

theorem Mode.Same.of_none {r : Option α} (h : m.Same none r) : r = none := by
  cases r with
  | none => rfl
  | some a => cases h

theorem Mode.Same.of_some {a : α} {r : Option α} (h : m.Same (some a) r) :
    ∃ b, r = some b ∧ m.Same a b := by
  cases r with
  | none => cases h
  | some b => exact ⟨b, rfl, Option.some.inj h⟩

theorem Mode.Same.cons {a b : α} {as bs : List α} (h : m.Same a b) (hs : m.Same as bs) :
    m.Same (a :: as) (b :: bs) := by
  change respan m.move b :: respan m.move bs = respan m.move a :: respan m.move as
  rw [h, hs]

namespace SpellsIf

section Many

variable {step step' : Parser (Option α)}

/-- What is repeated is written each time. -/
theorem many (hF : ∀ {ts us}, Looks ts us → F ts us) (adv : Advances step)
    (adv' : Advances step')
    (h : SpellsIf F m Anywhere .piece [] step step' fun r => r.elim [] T) :
    SpellsIf F m Anywhere .piece [] (Grammar.many step) (Grammar.many step')
      fun as => as.flatMap T := by
  intro s as s' _ run
  have repeats := (many_ok adv).1 run
  clear run
  have unrolled : Grammar.many step' = _ := funext fun _ => many_run adv'
  rw [unrolled]
  induction repeats with
  | stop run =>
      refine (h _ _ _ trivial run).append hF fun r same => ?_
      obtain rfl := same.of_none
      exact SpelledIf.pure rfl
  | more run _ ih =>
      refine (h _ _ _ trivial run).append hF fun r hr => ?_
      obtain ⟨b, rfl, same⟩ := hr.of_some
      rw [← unrolled] at ih
      exact (ih trivial).shift.append hF fun _ sames => SpelledIf.pure (same.cons sames)

theorem many1 {first first' : Parser α} {T₁ : α → List Token} (adv : Advances step)
    (adv' : Advances step') (hp : Spells m P .phrase [] first first' T₁)
    (h : Spells m Anywhere .piece [] step step' fun r => r.elim [] T) :
    Spells m P .phrase [] (Grammar.many1 first step) (Grammar.many1 first' step')
      fun as => as.head?.elim [] T₁ ++ as.tail.flatMap T :=
  hp.bind fun _ _ same => (many Looks.follow adv adv' h).append fun _ _ sames =>
    pure (same.cons sames) rfl

end Many

section Listed

variable {close : Token} {element element' : Parser α}

/-- A comma after the last element is read in one spelling and missing in the other. -/
theorem listedTail_trailing {a a' : α} {s : Reading} {l₀ : List Token} (hc : close.isShut)
    (same : m.Same a a') (hs : s.token? = some (.symbol .comma))
    (hs' : s.advance.token? = some close) :
    SpelledIf F m .tail l₀ (l₀ ++ [close]) s [a] s.advance.advance
      (listedTail close element' a') := by
  obtain ⟨ic, rest, rest_eq, hic⟩ := Reading.token?_eq_some.1 hs
  have advance : s.advance = { s with rest, lastEnd := ic.span.stop } :=
    Reading.advance_eq rest_eq
  rw [advance] at hs' ⊢
  obtain ⟨ik, rest', rfl, hik⟩ := Reading.token?_eq_some.1 hs'
  have doc : close.isDoc = false := Grade.isDoc_of_isPlain (Grade.isPlain_of_isShut hc)
  have respells : Respells [ic.token, ik.token] (undoc [close]) := by
    rw [hic, hik, undoc_cons doc]
    exact Respells.nil.comma_shut hc
  have tail : Grade.tail.Holds [ic.token, ik.token] (undoc [close]) := by
    rw [hic, hik, undoc_cons doc]
    exact Grade.tail_comma_shut hc
  refine ⟨[ic, ik], rest_eq, List.suffix_refl _, fun _ => ⟨[close], rfl, ⟨respells, ?_, ?_⟩, tail,
    fun _ => ?_⟩⟩
  · intro ms
    rw [List.singleton_append, bareAfter_cons doc, bareAfter_cons doc]
    rfl
  · intro line hl
    rw [← List.mem_singleton.1 hl] at doc
    cases doc
  intro u cs' us copies hu _ ends
  cases m with
  | exact =>
      obtain rfl : cs' = [ic, ik] := copies
      have first : u.token? = some (.symbol .comma) :=
        Reading.token?_eq_some.2 ⟨ic, ik :: us, hu, hic⟩
      have next : u.advance.token? = some close := by
        refine Reading.token?_eq_some.2 ⟨ik, us, ?_, hik⟩
        rw [Reading.advance_eq hu]
        rfl
      refine ⟨[a'], u.advance.advance, ?_, ?_, ?_, ?_, ?_⟩
      · rw [listedTail_comma first, bind_of_ok (expect_ok.2 ⟨first, rfl⟩), bind_of_ok (listed_stop next)]
        rfl
      · exact same.cons rfl
      all_goals simp [Reading.advance, hu, Mode.Ends]
  | canonical =>
      change cs'.map Item.bare = _ at copies
      rw [bareAfter_cons doc] at copies
      obtain ⟨ik', rest₁, rfl, hik', hrest₁⟩ := List.map_eq_cons_iff.1 copies
      obtain rfl := List.map_eq_nil_iff.1 hrest₁
      have token : ik'.token = close := congrArg Prod.fst hik'
      have first : u.token? = some close := Reading.token?_eq_some.2 ⟨ik', us, hu, token⟩
      have notComma : close ≠ .symbol .comma := by rintro rfl; cases hc
      refine ⟨[a'], u.advance, ?_, same.cons rfl, ?_, rfl, ?_⟩
      · rw [listedTail_close (by simpa [first] using notComma),
          bind_of_ok (expect_ok.2 ⟨first, rfl⟩)]
        rfl
      all_goals simp [Reading.advance, hu]

/-- A list is written with no comma in front of the closing token. -/
theorem listed (hc : close.isShut)
    (len : ∀ ⦃s a s'⦄, element s = .ok a s' → s'.rest.length ≤ s.rest.length)
    (len' : ∀ ⦃s a s'⦄, element' s = .ok a s' → s'.rest.length ≤ s.rest.length)
    (h : SpellsIf FollowElement m Anywhere .phrase [] element element' T) :
    Spells m P .closed [] (Grammar.listed close element) (Grammar.listed close element')
      fun as => [.symbol .comma].intercalate (as.map T) ++ [close] := by
  intro s as s' hP run
  obtain ⟨as₁, s₁, first, last⟩ := bind_ok.1 run
  obtain ⟨_, s₂, ends, done⟩ := bind_ok.1 last
  obtain ⟨hs₁, rfl⟩ := expect_ok.1 ends
  obtain ⟨rfl, rfl⟩ := pure_ok.1 done
  have commas := (commaList_ok len).1 first
  clear hP run first last ends done
  have unrolled : ∀ {s u : Reading}, s.token? ≠ some close → u.token? = s.token? →
      m.Same s.span u.span → Grammar.listed close element' u =
        (element' >>= listedTail close element') u := by
    intro s u ne head _
    rw [listed_run len', if_neg (by rwa [head])]
  induction commas with
  | stop _ =>
      exact SpelledIf.token (f := Pure.pure []) (Grade.leads_shut hc) hs₁ (fun hu => listed_stop hu)
        (SpelledIf.pure rfl)
  | @last s s₁ a ne run comma =>
      simp only [List.map_cons, List.map_nil, List.intercalate_singleton]
      refine SpelledIf.of_head ((h _ _ _ trivial run).and_then (fun a' same => ?_)
        (fun tail _ => (tail _ (.inr rfl) _ _).1) Grade.phrase_tail) (unrolled ne)
      refine SpelledIf.token (f := Pure.pure [a']) (Grade.leads_shut_tail hc) hs₁ (fun hu => ?_)
        (SpelledIf.pure (same.cons rfl))
      rw [listedTail_close (by rw [hu, ← hs₁]; exact comma), bind_of_ok (expect_ok.2 ⟨hu, rfl⟩)]
  | @more s s₁ s' a as ne run comma rest ih =>
      refine SpelledIf.of_head ((h _ _ _ trivial run).and_then (fun a' same => ?_)
        (fun tail _ => (tail _ (.inr rfl) _ _).1) Grade.phrase_tail) (unrolled ne)
      cases as with
      | nil =>
          simp only [List.map_cons, List.map_nil, List.intercalate_singleton]
          cases rest with
          | stop hs' => exact listedTail_trailing hc same comma hs'
      | cons b as =>
          have more : SpelledIf _ m _ (T a ++ [.symbol .comma]) _ _ _ _ _ := (ih hs₁).shift
          have list := more.and_then (k := .closed) (fun as' sames => SpelledIf.pure (same.cons sames)) (Grade.Holds.follow Looks.follow)
            Grade.closed_append
          simp only [List.map_cons, List.intercalate_cons_cons, List.append_assoc] at list ⊢
          refine SpelledIf.token Grade.leads_comma_tail comma (fun hu => ?_) list
          rw [listedTail_comma hu, bind_of_ok (expect_ok.2 ⟨hu, rfl⟩)]

/-- A list that is not empty. -/
theorem listed1 (hc : close.isShut)
    (len : ∀ ⦃s a s'⦄, element s = .ok a s' → s'.rest.length ≤ s.rest.length)
    (len' : ∀ ⦃s a s'⦄, element' s = .ok a s' → s'.rest.length ≤ s.rest.length)
    (head : ∀ ⦃s a s'⦄, element s = .ok a s' → s.token? ≠ some close)
    (h : SpellsIf FollowElement m Anywhere .phrase [] element element' T) :
    Spells m P .closed [] (element >>= listedTail close element)
      (element' >>= listedTail close element')
      fun as => [.symbol .comma].intercalate (as.map T) ++ [close] := by
  intro s as s' hs run
  obtain ⟨a, s₁, first, -⟩ := bind_ok.1 run
  have ne := head first
  have whole : Grammar.listed close element s = .ok as s' := by rwa [listed_run len, if_neg ne]
  refine (listed hc len len' h s as s' hs whole).of_head fun {u} same _ => ?_
  rw [listed_run len', if_neg (by rwa [same])]

end Listed

end SpellsIf

section Grow

variable {step step' : α → Parser (Option α)}

/-- What has been read grows as it is written: what comes next stands after it. -/
theorem Spelled.grow (adv : ∀ a, Advances (step a)) (adv' : ∀ a, Advances (step' a))
    (h : ∀ {a a' s r s'}, m.Same a a' → step a s = .ok r s' →
      Spelled m .piece (T a) (T (r.getD a)) s r s' (step' a'))
    {a a' c : α} {s s' : Reading} (same : m.Same a a') (run : Grammar.grow step a s = .ok c s') :
    Spelled m .piece (T a) (T c) s c s' (Grammar.grow step' a') := by
  have grows := (grow_ok adv).1 run
  clear run
  have unrolled (a : α) : Grammar.grow step' a = _ := funext fun _ => grow_run adv'
  induction grows generalizing a' with
  | stop run =>
      rw [unrolled]
      refine (h same run).append Looks.follow fun r hr => ?_
      obtain rfl := hr.of_none
      exact SpelledIf.pure same
  | more run _ ih =>
      rw [unrolled]
      refine (h same run).append Looks.follow fun r hr => ?_
      obtain ⟨b, rfl, same'⟩ := hr.of_some
      exact ih same'

end Grow

end Mim
