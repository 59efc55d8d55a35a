import Mim.Proofs.Covers.Grammar
import Mim.Proofs.Sources
import Mim.Proofs.Spells.Expr

/-! # Files are read as they are written

A file that is read with nothing wrong in it is written as dependencies and declarations,
each closed by a semicolon. A declaration at the end may have none; it ends where the input
does, and where the next declaration begins.
-/

namespace Mim

open Simulation (Anywhere)
open Grammar Token Mode Layout
open Nested (full)

variable {m : Mode} {P : Option Token → Prop} {s s₁ s' : Reading}

/-- What may follow the dependencies. -/
def Token.FollowDependency (ts us : List Token) : Prop :=
  ts.head?.any startsDependency = false → us.head?.any startsDependency = false

theorem Token.Looks.followDependency {ts us : List Token} (h : Looks ts us) :
    FollowDependency ts us := by
  intro no
  rwa [← head_look, ← show look ts = look us from h, head_look]

/-- The reading past a semicolon, if one comes next. -/
def Reading.pastSemicolon (s : Reading) : Reading :=
  if s.token? = some (.symbol .semicolon) then s.advance else s

/-- What may stand after items that are read again in the same place: the last is a semicolon,
    or a declaration begins or nothing follows. -/
def Mode.Joins (m : Mode) (cs us : List Item) : Prop :=
  match m with
  | .exact => ∀ i ∈ cs.getLast?, i.token = .symbol .semicolon ∨ us = [] ∨
    (us.head?.map Item.token).any startsDeclaration
  | .canonical => True

theorem Mode.Joins.of_append {cs ds us : List Item} (h : m.Joins (cs ++ ds) us) :
    m.Joins ds us := by
  cases m with
  | canonical => trivial
  | exact => exact fun i hi => h i (by rw [List.getLast?_append, Option.mem_def.1 hi]; rfl)

/-- What is read again is not recovered from. -/
theorem SpelledIf.recovered {α : Type} [Spanned α] {F : List Token → List Token → Prop} {k : Grade}
    {l₀ l : List Token} {inWhere : Bool} {a : α} {q : Parser α} (h : SpelledIf F m k l₀ l s a s' q) :
    SpelledIf F m k l₀ l s (Except.ok a : Except Span α) s' (recovering inWhere q) := by
  obtain ⟨cs, rest, recorded, told⟩ := h
  refine ⟨cs, rest, recorded, fun clean => ?_⟩
  obtain ⟨l₁, hl, w, hold, reads⟩ := told clean
  refine ⟨l₁, hl, w, hold, fun admits => ?_⟩
  intro u cs' us copies hu follow ends
  obtain ⟨a', u', run, same, facts⟩ := reads admits copies hu follow ends
  exact ⟨.ok a', u', recovering_ok run, congrArg Except.ok same, facts⟩

namespace Grammar

section Dependencies

/-- The tokens of what is read in the place of a dependency. -/
def partTokens : Except Span Dependency → List Token
  | .ok d => d.layout.tokens
  | .error _ => []

theorem dependency_spells {F : List Token → List Token → Prop} :
    SpellsIf F m P .phrase [] dependency dependency fun d => d.layout.tokens := by
  have name : ∀ kind : DependencyKind, SpellsIf F m Anywhere .phrase [.keyword kind.keyword]
      (do
        let name ← identifier
        expect (.symbol .semicolon)
        return (kind, name))
      (do
        let name ← identifier
        expect (.symbol .semicolon)
        return (kind, name))
      fun r => [.keyword r.1.keyword] ++ r.2.layout.tokens ++ [.symbol .semicolon] := fun kind =>
    SpellsIf.before (identifier_spells.loosen.follow Looks.follow) fun _ _ same =>
      SpellsIf.expect rfl (SpellsIf.pure (Same.prod_iff.2 ⟨rfl, same⟩) rfl)
  have made : ∀ r : (DependencyKind × Ident) × Span, respan m.move (Dependency.mk r.1.1 r.1.2 r.2) =
      Dependency.mk (respan m.move r).1.1 (respan m.move r).1.2 (respan m.move r).2 := fun _ => rfl
  refine SpellsIf.made (SpellsIf.located (L := fun r => [.keyword r.1.keyword] ++ r.2.layout.tokens ++
    [.symbol .semicolon]) (SpellsIf.accept ?_ ?_)) (fun _ _ same => same.map made) fun _ => rfl
  · exact SpellsIf.expect rfl (name .plugin).loosen
  · exact SpellsIf.expect rfl (name .import_).loosen

/-- A dependency, if one comes next, and what is passed over if it is broken. -/
def dependency? : Parser (Option (Except Span Dependency)) := do
  if ← dependencyAhead then some <$> recovering false dependency else return none

theorem dependency?_run (s : Reading) : dependency? s =
    (if (look s.tokens).1.any startsDependency then some <$> recovering false dependency
    else pure none) s := by
  unfold dependency?
  rw [bind_of_ok dependencyAhead_run, head_look, Reading.head?_tokens]

theorem startsDependency_look (s : Reading) :
    (look s.tokens).1.any startsDependency = s.token?.any startsDependency := by
  rw [head_look, Reading.head?_tokens]

theorem recovering_dependency_onward {r : Except Span Dependency}
    (ahead : s.token?.any startsDependency) (run : recovering false dependency s = .ok r s') :
    s.Onward 1 s' := by
  have inStep : (Simulation.onward s).InStep (· ≠ none) 1 (s.rest.length + 1)
      (recovering false dependency) (recovering false dependency) :=
    recovering_inStep dependency_inStep fun _ h => h
  exact inStep.onward (fun none => by rw [none] at ahead; cases ahead) run

theorem dependency?_advances : Advances dependency? := by
  intro s part s' run
  rw [dependency?_run, startsDependency_look] at run
  split at run
  · next ahead =>
      rw [map_eq_bind] at run
      obtain ⟨part, s₁, first, done⟩ := bind_ok.1 run
      obtain ⟨-, rfl⟩ := pure_ok.1 done
      exact (recovering_dependency_onward ahead first).length
  · cases (pure_ok.1 run).1

theorem dependency?_spells :
    SpellsIf FollowDependency m Anywhere .piece [] dependency? dependency?
      fun r => r.elim [] partTokens := by
  refine SpellsIf.choose (c := fun seen => seen.1.any startsDependency) (fun follow no => ?_)
    dependency?_run dependency?_run (fun s r s' _ ahead run => ?_) (SpellsIf.pure (Same.refl none) rfl)
  · rw [head_look] at no ⊢
    exact follow no
  · rw [startsDependency_look] at ahead
    rw [map_eq_bind] at run ⊢
    obtain ⟨part, s₁, first, done⟩ := bind_ok.1 run
    obtain ⟨rfl, rfl⟩ := pure_ok.1 done
    have onward := recovering_dependency_onward ahead first
    by_cases clean : Clean s s₁
    · obtain ⟨d, rfl, read⟩ := recovering_clean (dependency_inStep (σ := .onward s) (m := s.rest.length))
        (fun none => by rw [none] at ahead; cases ahead) first clean
      have spelled : SpelledIf FollowDependency m .phrase [] (partTokens (.ok d)) s d s₁ dependency :=
        dependency_spells (P := Anywhere) s d s₁ trivial read
      exact SpelledIf.map spelled.recovered fun _ same => congrArg some same
    · exact SpelledIf.of_not_clean onward clean

theorem dependencies_spells :
    SpellsIf FollowDependency m Anywhere .piece [] dependencies dependencies
      fun ds => ds.flatMap fun d => d.layout.tokens := by
  have loop : SpellsIf FollowDependency m Anywhere .piece [] (many dependency?) (many dependency?)
      fun parts => parts.flatMap partTokens :=
    SpellsIf.many Looks.followDependency dependency?_advances dependency?_advances dependency?_spells
  refine SpellsIf.made loop (fun parts parts' same => same.map (respan_toOption m.move)) ?_
  intro parts
  induction parts with
  | nil => rfl
  | cons part parts ih =>
      cases part with
      | ok d => simp [partTokens, Except.toOption, ← ih]
      | error place => exact ih

end Dependencies

section Declarations

theorem startsDependency_of_startsDeclaration {t : Option Token} (h : t.any startsDeclaration) :
    t.any startsDependency = false := by
  cases t with
  | none => rfl
  | some t =>
      cases t with
      | keyword word => cases word <;> first | rfl | cases h
      | _ => cases h

theorem declaration?_of_declaration {g : Nested} {d : Decl} (run : declaration g s = .ok d s₁) :
    declaration? g s = .ok (some d) s₁.pastSemicolon := by
  have head := declaration_head run
  have read : fileDeclaration g s = .ok d s₁.pastSemicolon := by
    unfold fileDeclaration
    rw [bind_of_ok dependencyAhead_run, startsDependency_of_startsDeclaration head]
    change (declaration g >>= _) s = _
    rw [bind_of_ok run, discard_semicolon]
    rfl
  have some : s.token?.isSome := by
    cases hs : s.token? with
    | none => rw [hs] at head; cases head
    | some t => rfl
  rw [declaration?_run, if_pos some, map_eq_bind]
  exact bind_ok.2 ⟨d, _, bind_ok.2 ⟨.ok d, _, recovering_ok read, rfl⟩, rfl⟩

variable {g : Nested} (hg : g.Spelled m)
include hg

/-- In a clean run a declaration is read, and the semicolon after it. -/
theorem declaration?_clean {d : Decl} (run : declaration? g s = .ok (some d) s₁)
    (clean : Clean s s₁) : ∃ s₀, declaration g s = .ok d s₀ ∧ s₁ = s₀.pastSemicolon := by
  rw [declaration?_run] at run
  split at run
  · next some =>
      rw [map_eq_bind] at run
      obtain ⟨d', s₂, first, done⟩ := bind_ok.1 run
      obtain ⟨eq, rfl⟩ := pure_ok.1 done
      obtain rfl := Option.some.inj eq
      obtain ⟨r, s₃, part, made⟩ := bind_ok.1 first
      have same : s₃ = s₂ := by
        cases r <;> exact (pure_ok.1 made).2
      subst same
      obtain ⟨d'', rfl, read⟩ := recovering_clean
        ((fileDeclaration_inStep (σ := .onward s) (m := s.rest.length) hg.inStep).weaken
          (fun _ _ => trivial) (Nat.le_refl _) (Nat.le_refl _)) (by
            intro none
            rw [none] at some
            cases some) part clean
      obtain rfl : d'' = d' := (pure_ok.1 made).1
      unfold fileDeclaration at read
      rw [bind_of_ok dependencyAhead_run] at read
      split at read
      · cases read
      · obtain ⟨d₁, s₀, decl, rest⟩ := bind_ok.1 read
        rw [discard_semicolon] at rest
        obtain ⟨rfl, rfl⟩ := pure_ok.1 rest
        exact ⟨s₀, decl, rfl⟩
  · cases (pure_ok.1 run).1

/-- In a clean run the first of the declarations that are left is read, and its semicolon. -/
theorem declarations_clean {d : Decl} {ds : List Decl} (run : declaration? g s = .ok (some d) s₁)
    (repeats : Repeats (declaration? g) s₁ ds s') (clean : Clean s s') :
    ∃ s₀, declaration g s = .ok d s₀ ∧ s₁ = s₀.pastSemicolon ∧ Clean s s₀ ∧ Clean s₁ s' := by
  obtain ⟨cs, rest⟩ := (declaration?_onward hg.inStep run).rest
  obtain ⟨clean₁, clean₂⟩ := clean.split rest.symm (declarations_onward hg.inStep repeats).recorded
  obtain ⟨s₀, decl, rfl⟩ := declaration?_clean hg run clean₁
  refine ⟨s₀, decl, rfl, ⟨clean₁.tokens, fun d hd => clean₁.recorded d ?_⟩, clean₂⟩
  unfold Reading.pastSemicolon
  split
  · unfold Reading.advance
    split <;> exact hd
  · exact hd

/-- Where a declaration comes next or nothing. -/
theorem declarations_head {ds : List Decl} (repeats : Repeats (declaration? g) s ds s')
    (clean : Clean s s') : s.token? = none ∨ s.token?.any startsDeclaration := by
  cases repeats with
  | stop stop => exact .inl (Reading.token?_eq_none.2 (declaration?_stop stop).1)
  | more run repeats =>
      obtain ⟨s₀, decl, -⟩ := declarations_clean hg run repeats clean
      exact .inr (declaration_head decl)

omit hg in
/-- One more declaration, in front of those that are read after it. -/
theorem declarations_more {d : Decl} {ds : List Decl} {u u₁ u' : Reading}
    (run : declaration? full u = .ok (some d) u₁)
    (rest : declarations full u₁ = (declarations full >>= fun more => pure (ds ++ more)) u') :
    declarations full u = (declarations full >>= fun more => pure (d :: ds ++ more)) u' := by
  rw [declarations_eq, many_run (declaration?_advances Nested.nests_full_self), bind_of_ok run]
  change (declarations full >>= fun ds => pure (d :: ds)) u₁ = _
  rw [bind_congr rest, bind_assoc]
  simp [declarations_eq]

omit hg in
theorem look_startsDeclaration {t : Token} (h : t.startsDeclaration)
    (ts : List Token) : look (t :: ts) = (some t, false) := by
  refine Grade.look_plain ?_ ts
  cases t with
  | keyword word => cases word <;> first | rfl | cases h
  | _ => cases h

end Declarations

/-- Declarations that were read to the end of the input are written each with a semicolon, and
    they are read again, up to what may follow them. -/
structure Redeclares (m : Mode) (s s' : Reading) (ds : List Decl) : Prop where
  alike : Alike s.tokens (undoc (Decl.innerLayout ds).tokens)
  docs {line : String} : .doc line ∈ (Decl.innerLayout ds).tokens →
    ∃ i ∈ s.rest, ∃ d ∈ i.doc, line.toList ∈ docLines d.toList
  rereads : m.Admits s.rest → ∀ {u : Reading} {cs' us : List Item},
    m.Copies s.rest (Decl.innerLayout ds).tokens cs' → u.rest = cs' ++ us → m.Joins s.rest us →
    m.Ends s.lastEnd u.lastEnd →
    ∃ ds' u', declarations full u = (declarations full >>= fun more => pure (ds' ++ more)) u' ∧
      m.Same ds ds' ∧ u'.rest = us ∧ m.Ends s'.lastEnd u'.lastEnd ∧
      u'.recorded.filter Diagnostic.isError = u.recorded.filter Diagnostic.isError

namespace Redeclares

variable {s₀ : Reading} {d : Decl} {ds : List Decl}

theorem tokens_cons (d : Decl) (ds : List Decl) : (Decl.innerLayout (d :: ds)).tokens =
    d.layout.tokens ++ .symbol .semicolon :: (Decl.innerLayout ds).tokens := by
  simp [Decl.innerLayout]

theorem undoc_cons (d : Decl) (ds : List Decl) : undoc (Decl.innerLayout (d :: ds)).tokens =
    undoc d.layout.tokens ++ .symbol .semicolon :: undoc (Decl.innerLayout ds).tokens := by
  rw [tokens_cons, undoc_append, Token.undoc_cons rfl]

theorem nil (hs : s.rest = []) : Redeclares m s s [] where
  alike := by
    rw [Reading.tokens, hs]
    exact Alike.refl _
  docs h := nomatch h
  rereads _ u cs' us copies hu _ ends := by
    rw [hs] at copies
    obtain rfl := copies.nil
    exact ⟨[], u, by simp, rfl, hu, ends, rfl⟩

/-- A declaration that a semicolon is read after. -/
theorem closed (h : Spelled m .phrase [] d.layout.tokens s d s₀ (declaration full))
    (clean : Clean s s₀) (hs₀ : s₀.token? = some (.symbol .semicolon))
    (ih : Redeclares m s₀.advance s' ds) : Redeclares m s s' (d :: ds) := by
  obtain ⟨cs, rest, -, told⟩ := h
  obtain ⟨l, hd, w, hold, reads⟩ := told clean
  obtain rfl : d.layout.tokens = l := hd
  obtain ⟨i, rest₀, hrest, token⟩ := Reading.token?_eq_some.1 hs₀
  obtain ⟨alike, docs, rereads⟩ := ih
  have advance := Reading.advance_eq hrest
  rw [advance] at alike docs rereads
  have whole : s.rest = cs ++ i :: rest₀ := by rw [rest, hrest]
  refine ⟨?_, fun {line} hl => ?_, fun admits {u cs' us} copies hu joins ends => ?_⟩
  · rw [undoc_cons, Reading.tokens, whole, List.map_append, List.map_cons, token]
    exact w.respells _ _ (alike.cons (by simp))
  · rw [tokens_cons] at hl
    rw [whole]
    rcases List.mem_append.1 hl with hl | hl
    · obtain ⟨j, hj, found⟩ := w.docs hl
      exact ⟨j, List.mem_append_left _ hj, found⟩
    · obtain ⟨j, hj, found⟩ := docs ((List.mem_cons.1 hl).resolve_left (by simp))
      exact ⟨j, List.mem_append_right _ (List.mem_cons_of_mem _ hj), found⟩
  · rw [whole] at copies joins
    rw [tokens_cons, ← token] at copies
    obtain ⟨cs₁, tail, rfl, copies₁, copies₂⟩ := copies.append w
    obtain ⟨i', cs₂, rfl, token', -, ends', copies₂⟩ := copies₂.cons (by rw [token]; rfl)
    have follow : Follow s₀.tokens ((i' :: cs₂ ++ us).map Item.token) := by
      refine Looks.follow ?_
      rw [Reading.tokens, hrest, List.cons_append, List.map_cons, List.map_cons, token', token]
      rfl
    obtain ⟨d', u₀, run, same, hu₀, -, errors₀⟩ :=
      reads admits copies₁ (hu.trans (List.append_assoc ..)) follow ends
    have next : u₀.token? = some (.symbol .semicolon) :=
      Reading.token?_eq_some.2 ⟨i', cs₂ ++ us, hu₀, token'.trans token⟩
    have advanced := Reading.advance_eq hu₀
    have admits₀ := @Mode.Admits.suffix _ _ rest₀ admits
      (by rw [whole]; exact (List.suffix_cons _ _).trans (List.suffix_append _ _))
    obtain ⟨ds', u', runs, sames, hu', ends', errors'⟩ := rereads (u := u₀.advance) admits₀ copies₂
      (by rw [advanced]; rfl) (@Mode.Joins.of_append _ [i] _ _ joins.of_append)
      (by rw [advanced]; exact ends')
    refine ⟨d' :: ds', u', declarations_more ?_ runs, same.cons sames, hu', ends', ?_⟩
    · rw [declaration?_of_declaration run, Reading.pastSemicolon, if_pos next]
    · rw [errors', advanced]
      exact errors₀

/-- Nothing that may stand after a declaration without a semicolon goes on with it. -/
theorem follow_bare {cs us : List Item} (hs₀ : s₀.token? = none ∨ s₀.token?.any startsDeclaration)
    (firm : ∃ i ∈ cs.getLast?, i.token ≠ .symbol .semicolon)
    (joins : Mode.exact.Joins (cs ++ s₀.rest) us) :
    Follow s₀.tokens ((s₀.rest ++ us).map Item.token) ∧
      (s₀.rest ++ us).head?.map Item.token ≠ some (.symbol .semicolon) := by
  cases hrest : s₀.rest with
  | nil =>
      obtain ⟨i, hi, ne⟩ := firm
      have tokens : s₀.tokens = [] := by rw [Reading.tokens, hrest]; rfl
      rw [tokens, List.nil_append]
      rcases (joins i (by rw [hrest, List.append_nil]; exact hi)).resolve_left ne with rfl | head
      · exact ⟨.inr (.inr rfl), by simp⟩
      · refine ⟨.inr (.inl ⟨rfl, by rwa [List.head?_map]⟩), fun semicolon => ?_⟩
        rw [semicolon] at head
        cases head
  | cons i rest =>
      have token : s₀.token? = some i.token := Reading.token?_eq_some.2 ⟨i, rest, hrest, rfl⟩
      have declares : i.token.startsDeclaration := by simpa [token] using hs₀
      refine ⟨Looks.follow ?_, ?_⟩
      · rw [Reading.tokens, hrest, List.cons_append, List.map_cons, List.map_cons, Looks,
          look_startsDeclaration declares, look_startsDeclaration declares]
      · intro semicolon
        rw [Option.some.inj semicolon] at declares
        cases declares

/-- A declaration that the next one follows or nothing. -/
theorem bare (h : Spelled m .phrase [] d.layout.tokens s d s₀ (declaration full))
    (clean : Clean s s₀) (hs₀ : s₀.token? = none ∨ s₀.token?.any startsDeclaration)
    (firm : ∀ {cs}, s.rest = cs ++ s₀.rest → ∃ i ∈ cs.getLast?, i.token ≠ .symbol .semicolon)
    (ih : Redeclares m s₀ s' ds) : Redeclares m s s' (d :: ds) := by
  obtain ⟨cs, rest, -, told⟩ := h
  obtain ⟨l, hd, w, hold, reads⟩ := told clean
  obtain rfl : d.layout.tokens = l := hd
  refine ⟨?_, fun {line} hl => ?_, fun admits {u cs' us} copies hu joins ends => ?_⟩
  · rw [undoc_cons, Reading.tokens, rest, List.map_append]
    refine w.respells _ _ (ih.alike.semicolon_right ?_)
    rw [Reading.head?_tokens]
    rcases hs₀ with head | head
    · simp [head]
    · intro pipe
      rw [pipe] at head
      cases head
  · rw [tokens_cons] at hl
    rw [rest]
    rcases List.mem_append.1 hl with hl | hl
    · obtain ⟨j, hj, found⟩ := w.docs hl
      exact ⟨j, List.mem_append_left _ hj, found⟩
    · obtain ⟨j, hj, found⟩ := ih.docs ((List.mem_cons.1 hl).resolve_left (by simp))
      exact ⟨j, List.mem_append_right _ hj, found⟩
  · have apart : ∀ {t : Token}, t.startsDeclaration = false → s₀.token? ≠ some t := by
      intro t ht hs
      simp [hs, ht] at hs₀
    cases m with
    | exact =>
        obtain rfl : cs' = s.rest := copies
        obtain ⟨follow, next⟩ := follow_bare hs₀ (firm rest) (rest ▸ joins)
        obtain ⟨d', u₀, run, same, hu₀, ends₀, errors₀⟩ :=
          @reads admits _ cs _ rfl (by rw [hu, rest, List.append_assoc]) follow ends
        have stays : u₀.pastSemicolon = u₀ := if_neg fun hc => next (by rw [← hu₀]; exact hc)
        obtain ⟨ds', u', runs, sames, hu', ends', errors'⟩ :=
          ih.rereads trivial rfl hu₀ (Mode.Joins.of_append (rest ▸ joins)) ends₀
        exact ⟨d' :: ds', u', declarations_more (by rw [declaration?_of_declaration run, stays]) runs,
          same.cons sames, hu', ends', errors'.trans errors₀⟩
    | canonical =>
        change cs'.map Item.bare = _ at copies
        rw [tokens_cons, w.settled, bareAfter_cons rfl] at copies
        obtain ⟨cs₁, tail, rfl, copies₁, copies₂⟩ := List.map_eq_append_iff.1 copies
        obtain ⟨i', cs₂, rfl, hi', copies₂⟩ := List.map_eq_cons_iff.1 copies₂
        have token' : i'.token = .symbol .semicolon := congrArg Prod.fst hi'
        have follow : Follow s₀.tokens ((i' :: cs₂ ++ us).map Item.token) := by
          refine .inl (.inr ⟨?_, by simp [token', isShut]⟩)
          rw [Reading.head?_tokens]
          exact apart rfl
        obtain ⟨d', u₀, run, same, hu₀, -, errors₀⟩ :=
          reads admits copies₁ (hu.trans (List.append_assoc ..)) follow ends
        have next : u₀.token? = some (.symbol .semicolon) :=
          Reading.token?_eq_some.2 ⟨i', cs₂ ++ us, hu₀, token'⟩
        have advanced := Reading.advance_eq hu₀
        obtain ⟨ds', u', runs, sames, hu', ends', errors'⟩ := ih.rereads (u := u₀.advance)
          (admits.suffix ⟨cs, rest.symm⟩) copies₂ (by rw [advanced]; rfl) trivial rfl
        refine ⟨d' :: ds', u', declarations_more ?_ runs, same.cons sames, hu', ends', ?_⟩
        · rw [declaration?_of_declaration run, Reading.pastSemicolon, if_pos next]
        · rw [errors', advanced]
          exact errors₀

end Redeclares

section Declarations

variable {g : Nested} (hg : g.Spelled m)
include hg

theorem declarations_redeclare (hl : g.LaysNodes) {ds : List Decl}
    (repeats : Repeats (declaration? g) s ds s') (clean : Clean s s') : Redeclares m s s' ds := by
  induction repeats with
  | stop stop =>
      obtain ⟨rest, rfl⟩ := declaration?_stop stop
      exact .nil rest
  | @more s s₁ s' d ds run repeats ih =>
      obtain ⟨s₀, decl, rfl, clean₀, clean₁⟩ := declarations_clean hg run repeats clean
      have spelled := declaration_spells (P := Anywhere) hg s d s₀ trivial decl
      have later := ih clean₁
      have head := declarations_head hg repeats clean₁
      unfold Reading.pastSemicolon at later head
      split at later
      · next hs₀ => exact .closed spelled clean₀ hs₀ later
      · next hs₀ =>
          rw [if_neg hs₀] at head
          refine .bare spelled clean₀ head (fun {cs} rest => ?_) later
          obtain ⟨-, ns, -, cs', after, firm, -⟩ := declaration_lays hl (P := Anywhere) s d s₀ trivial decl
          rwa [List.append_cancel_right (rest.symm.trans after.rest)]

end Declarations

section Files

theorem tokens_file (f : File) : f.layout.tokens =
    (f.dependencies.flatMap fun d => d.layout.tokens) ++ (Decl.innerLayout f.declarations).tokens := by
  have divider : Layout.tokens (if f.dependencies.isEmpty || f.declarations.isEmpty then []
      else [.line]) = [] := by
    split <;> rfl
  rw [File.layout, tokens_append, tokens_append, divider, tokens_flatMap, tokens_flatMap,
    Decl.tokens_innerLayout, List.append_nil]
  simp

/-- No dependency follows the dependencies, whichever way the declarations are spelled. -/
theorem follow_dependencies (ds : List Decl) {ts : List Token} {cs us : List Item}
    (copies : cs.map Item.token = ts ∨ cs.map Item.token = undoc (Decl.innerLayout ds).tokens)
    (apart : (us.head?.map Item.token).any startsDependency = false) :
    FollowDependency ts ((cs ++ us).map Item.token) := by
  intro no
  have none_ : (cs.map Item.token).head?.any startsDependency = false := by
    rcases copies with copies | copies
    · rwa [copies]
    · rw [copies]
      have head := head_undoc_innerLayout ds
      cases hl : (undoc (Decl.innerLayout ds).tokens).head? with
      | none => rfl
      | some t =>
          rcases head t hl with rfl | declares
          · rfl
          · exact startsDependency_of_startsDeclaration (t := some t) declares
  cases cs with
  | nil => rwa [List.nil_append, List.head?_map]
  | cons i cs => exact none_

variable {g : Nested} (hg : g.Spelled m) (hl : g.LaysNodes)
include hg hl

/-- What stands in a file is written with its semicolons, and it is read again, up to what
    may follow it. -/
theorem fileParts_spell {deps : List Dependency} {ds : List Decl}
    (run : fileParts g s = .ok (deps, ds) s') (clean : Clean s s') :
    let l := (deps.flatMap fun d => d.layout.tokens) ++ (Decl.innerLayout ds).tokens
    Alike s.tokens (undoc l) ∧
      (∀ {line}, .doc line ∈ l → ∃ i ∈ s.rest, ∃ d ∈ i.doc, line.toList ∈ docLines d.toList) ∧
      (m.Admits s.rest → ∀ {u : Reading} {cs' us : List Item}, m.Copies s.rest l cs' →
        u.rest = cs' ++ us → m.Joins s.rest us →
        (us.head?.map Item.token).any startsDependency = false → m.Ends s.lastEnd u.lastEnd →
        ∃ deps' ds' u',
          fileParts full u = (declarations full >>= fun more => pure (deps', ds' ++ more)) u' ∧
          m.Same deps deps' ∧ m.Same ds ds' ∧ u'.rest = us ∧ m.Ends s'.lastEnd u'.lastEnd ∧
          u'.recorded.filter Diagnostic.isError = u.recorded.filter Diagnostic.isError) := by
  obtain ⟨deps', s₁, early, rest⟩ := bind_ok.1 run
  obtain ⟨ds', s₂, late, done⟩ := bind_ok.1 rest
  obtain ⟨eq, rfl⟩ := pure_ok.1 done
  obtain ⟨rfl, rfl⟩ := Prod.mk.inj eq
  have repeats := (many_ok (declaration?_advances hg.inStep)).1 late
  obtain ⟨cs, rest, -, told⟩ := dependencies_spells (m := m) s deps' s₁ trivial early
  obtain ⟨clean₁, clean₂⟩ := clean.split rest (declarations_onward hg.inStep repeats).recorded
  obtain ⟨l, hd, w, -, reads⟩ := told clean₁
  obtain rfl := hd
  have later := declarations_redeclare hg hl repeats clean₂
  refine ⟨?_, fun {line} hl => ?_, fun admits {u cs' us} copies hu joins apart ends => ?_⟩
  · rw [undoc_append, Reading.tokens, rest, List.map_append]
    exact w.respells _ _ later.alike
  · rw [rest]
    rcases List.mem_append.1 hl with hl | hl
    · obtain ⟨i, hi, found⟩ := w.docs hl
      exact ⟨i, List.mem_append_left _ hi, found⟩
    · obtain ⟨i, hi, found⟩ := later.docs hl
      exact ⟨i, List.mem_append_right _ hi, found⟩
  · rw [rest] at copies joins
    obtain ⟨cs₁, cs₂, rfl, copies₁, copies₂⟩ := copies.append w
    have follow : FollowDependency s₁.tokens ((cs₂ ++ us).map Item.token) :=
      follow_dependencies ds' copies₂.tokens apart
    obtain ⟨deps'', u₁, run₁, same, hu₁, ends₁, errors₁⟩ :=
      reads admits copies₁ (hu.trans (List.append_assoc ..)) follow ends
    obtain ⟨ds'', u', run₂, sames, hu', ends', errors'⟩ :=
      later.rereads (admits.suffix ⟨cs, rest.symm⟩) copies₂ hu₁ joins.of_append ends₁
    refine ⟨deps'', ds'', u', ?_, same, sames, hu', ends', errors'.trans errors₁⟩
    unfold fileParts
    rw [bind_of_ok run₁, bind_congr run₂, bind_assoc]
    simp

end Files

end Grammar

end Mim
