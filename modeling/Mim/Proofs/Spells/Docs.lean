import Mim.Proofs.Spells.Decls

/-! # Doc comments are read as they are written

The doc comment of a declaration stands in front of its first token. Only the rule for
a declaration asks for it: the rules for its forms do not.
-/

namespace Mim

open Simulation (Anywhere)
open Grammar Token Mode Layout
open Nested (full)

variable {m : Mode} {P : Option Token → Prop} {l₀ : List Token}

/-- The reading without the doc comment in front of its next token. -/
def Reading.undocumented (s : Reading) : Reading :=
  match s.rest with
  | [] => s
  | i :: rest => { s with rest := { i with doc := none } :: rest }

namespace Reading

variable {s : Reading} {t : Token}

theorem token?_undocumented : s.undocumented.token? = s.token? := by
  unfold undocumented token?
  split
  · rfl
  · next h => rw [h]; rfl

theorem span_undocumented : s.undocumented.span = s.span := by
  unfold undocumented
  split
  · rfl
  · next h => simp only [span, h]

theorem advance_undocumented (h : s.token? = some t) : s.undocumented.advance = s.advance := by
  obtain ⟨i, rest, hs, -⟩ := token?_eq_some.1 h
  simp [undocumented, advance, hs]

end Reading

namespace Grammar

variable {α β : Type} {s : Reading} {t : Token}

theorem expect_undocumented {f : Unit → Parser α} (h : s.token? = some t) :
    (expect t >>= f) s.undocumented = (expect t >>= f) s := by
  rw [bind_of_ok (expect_ok.2 ⟨Reading.token?_undocumented.trans h, rfl⟩),
    bind_of_ok (expect_ok.2 ⟨h, rfl⟩), Reading.advance_undocumented h]

theorem accept_undocumented {marker : Token} {f : Bool → Parser α} (h : s.token? = some t)
    (no : t ≠ marker → f false s.undocumented = f false s) :
    (accept marker >>= f) s.undocumented = (accept marker >>= f) s := by
  have h' : s.undocumented.token? = some t := Reading.token?_undocumented.trans h
  by_cases ht : t = marker
  · rw [ht] at h h'
    rw [bind_of_ok (accept_ok.2 (.inl ⟨rfl, h', rfl⟩)), bind_of_ok (accept_ok.2 (.inl ⟨rfl, h, rfl⟩)),
      Reading.advance_undocumented h]
  · rw [bind_of_ok (accept_ok.2 (.inr ⟨rfl, by simpa [h'] using ht, rfl⟩)),
      bind_of_ok (accept_ok.2 (.inr ⟨rfl, by simpa [h] using ht, rfl⟩))]
    exact no ht

theorem located_undocumented {p : Parser α} (h : p s.undocumented = p s) :
    located p s.undocumented = located p s := by
  unfold located
  rw [span_bind, span_bind, Reading.span_undocumented]
  exact bind_congr h

/-- The form of a declaration does not depend on its doc comment. -/
theorem declForm_undocumented {g : Nested} (h : s.token?.any startsDeclaration) :
    declForm g s.undocumented = declForm g s := by
  have lam_undocumented : ∀ word kind, s.token? = some (.keyword word) →
      lamKind? (.keyword word) = some kind →
      (DeclForm.lam <$> lam g) s.undocumented = (DeclForm.lam <$> lam g) s := by
    intro word kind hs hk
    rw [map_eq_bind]
    unfold lam
    rw [bind_assoc]
    refine bind_congr (located_undocumented ?_)
    rw [peek_bind, peek_bind, Reading.token?_undocumented, hs]
    simp only [Option.bind_some, hk]
    rw [advance_bind, advance_bind, Reading.advance_undocumented hs]
  have rule_undocumented : ∀ word, s.token? = some (.keyword word) → word = .rule ∨ word = .norm →
      rule g s.undocumented = rule g s := by
    intro word hs hw
    refine accept_undocumented hs fun ne => ?_
    obtain rfl : word = .rule := hw.resolve_right fun e => ne (by rw [e])
    exact expect_undocumented hs
  unfold declForm
  rw [peek_bind, peek_bind, Reading.token?_undocumented]
  cases hs : s.token? with
  | none => rw [hs] at h; cases h
  | some t =>
      cases t with
      | keyword word =>
          cases word
          case axm => exact expect_undocumented hs
          case cfun => exact expect_undocumented hs
          case ccon => exact expect_undocumented hs
          case let_ => exact expect_undocumented hs
          case rec_ => exact expect_undocumented hs
          case lam => exact lam_undocumented _ _ hs rfl
          case con => exact lam_undocumented _ _ hs rfl
          case fun_ => exact lam_undocumented _ _ hs rfl
          case rule => exact rule_undocumented _ hs (.inl rfl)
          case norm => exact rule_undocumented _ hs (.inr rfl)
          all_goals rw [hs] at h; cases h
      | _ => rw [hs] at h; cases h

/-- What is written for a form begins with the keyword of a declaration. -/
theorem tokens_declForm_cons (form : DeclForm) (h : form.layout.tokens ≠ []) :
    ∃ word ts, word.startsDeclaration ∧ form.layout.tokens = .keyword word :: ts := by
  cases form with
  | lam lam =>
      obtain ⟨kind, isExternal, name, params, codomain, body, place⟩ := lam
      exact ⟨kind.keyword, _, by cases kind <;> rfl, by rw [DeclForm.layout, Lam.tokens_layout]; rfl⟩
  | rule kind binder lhs guard rhs => exact ⟨kind.keyword, _, by cases kind <;> rfl, rfl⟩
  | error => exact absurd rfl h
  | _ => exact ⟨_, _, rfl, rfl⟩

/-- The lines of a doc comment wait for the next token. -/
theorem bareAfter_docs (lines : List String) (ts : List Token) :
    ∀ pending, bareAfter pending (lines.map .doc ++ ts) = bareAfter (pending ++ lines) ts := by
  induction lines with
  | nil => simp
  | cons line lines ih =>
      intro pending
      rw [List.map_cons, List.cons_append, bareAfter, ih, List.append_assoc]
      rfl

theorem undoc_docs (lines : List String) (ts : List Token) :
    undoc (lines.map .doc ++ ts) = undoc ts := by
  rw [undoc_append]
  have none_ : undoc (lines.map .doc) = [] := by
    induction lines with
    | nil => rfl
    | cons line lines ih => exact ih
  rw [none_, List.nil_append]

/-- The lines of a doc comment. -/
def linesOf (doc : Option String) : List String := (docLines (doc.getD "").toList).map String.ofList

theorem tokens_decl (doc : Option String) (form : DeclForm) (place : Span) :
    (Decl.mk doc form place).layout.tokens = (linesOf doc).map .doc ++ form.layout.tokens := by
  rw [Decl.layout, tokens_append, tokens_docLayout, linesOf, List.map_map]
  rfl

/-- A doc comment in front of a form is written in front of it. -/
theorem written_documented {i : Item} {cs : List Item} {word : Keyword} {ts : List Token}
    (w : Written (i :: cs) (.keyword word :: ts)) :
    Written (i :: cs) ((linesOf i.doc).map .doc ++ .keyword word :: ts) where
  respells := by
    rw [undoc_docs]
    exact w.respells
  settled ms := by
    have settled := w.settled ms
    rw [List.cons_append, bareAfter_cons rfl, bareAfter_cons rfl] at settled
    rw [List.append_assoc, bareAfter_docs, bareAfter_docs, List.cons_append, bareAfter_cons rfl,
      bareAfter_cons rfl, (List.cons.inj settled).2]
    rfl
  docs {line} hl := by
    rcases List.mem_append.1 hl with hl | hl
    · cases hd : i.doc with
      | none =>
          rw [hd] at hl
          cases hl
      | some d =>
          rw [hd] at hl
          obtain ⟨_, hx, rfl⟩ : ∃ x, x ∈ linesOf (some d) ∧ x = line := by simpa using hl
          obtain ⟨cs, hcs, rfl⟩ := List.mem_map.1 hx
          exact ⟨i, List.mem_cons_self, d, hd, by simpa using hcs⟩
    · exact w.docs hl

section Declarations

variable {g : Nested} (hg : g.Spelled m)
include hg

theorem declaration_spells :
    Spells m P .phrase [] (declaration g) (declaration full) fun d => d.layout.tokens := by
  intro s d s' hs run
  obtain ⟨r, s₁, first, done⟩ := bind_ok.1 (show (located (declForm g) >>= fun r =>
    pure (Decl.mk s.doc? r.1 r.2)) s = .ok d s' from run)
  obtain ⟨rfl, rfl⟩ := pure_ok.1 done
  obtain ⟨cs, rest, recorded, told⟩ := SpellsIf.located (declForm_spells hg) s r s₁ hs first
  refine ⟨cs, rest, recorded, fun clean => ?_⟩
  obtain ⟨l₁, hl, w, hold, reads⟩ := told clean
  have written_ne : l₁ ≠ [] := fun e => hold.2.1 (hold.1.nil_iff.2 (by rw [e]; rfl))
  change r.1.layout.tokens = l₁ at hl
  rw [← hl] at written_ne
  obtain ⟨word, ts, hword, htokens⟩ := tokens_declForm_cons r.1 written_ne
  obtain rfl : l₁ = .keyword word :: ts := hl.symm.trans htokens
  obtain ⟨i, cs₁, rfl⟩ := List.exists_cons_of_ne_nil fun e : cs = [] => hold.2.1 (by rw [e]; rfl)
  have token : i.token = .keyword word := Option.some.inj hold.1.head
  have doc : s.doc? = i.doc := by simp [Reading.doc?, rest]
  rw [doc]
  refine ⟨(linesOf i.doc).map .doc ++ .keyword word :: ts, by simp [tokens_decl, htokens],
    written_documented w, by rwa [undoc_docs], fun admits => ?_⟩
  intro u cs' us copies hu follow ends
  suffices reads' : u.doc? = i.doc ∧ ∃ r' u', located (declForm full) u = .ok r' u' ∧ m.Same r r' ∧
      u'.rest = us ∧ m.Ends s₁.lastEnd u'.lastEnd ∧
      u'.recorded.filter Diagnostic.isError = u.recorded.filter Diagnostic.isError by
    obtain ⟨hdoc, r', u', run', same, facts⟩ := reads'
    have again : declaration full u = (located (declForm full) >>= fun r =>
        pure (Decl.mk u.doc? r.1 r.2)) u := rfl
    refine ⟨⟨u.doc?, r'.1, r'.2⟩, u', again.trans (bind_ok.2 ⟨r', u', run', rfl⟩), ?_, facts⟩
    rw [hdoc]
    refine same.map (f := fun r => Decl.mk i.doc r.1 r.2) fun r => ?_
    change Decl.mk (m.move.doc i.doc) _ _ = Decl.mk i.doc _ _
    rw [m.doc_move]
    rfl
  cases m with
  | exact =>
      obtain rfl : cs' = i :: cs₁ := copies
      exact ⟨by simp [Reading.doc?, hu], reads admits rfl hu follow ends⟩
  | canonical =>
      change cs'.map Item.bare = _ at copies
      rw [bareAfter_docs, bareAfter_cons rfl] at copies
      obtain ⟨i', cs₁', rfl, hi', hcs₁'⟩ := List.map_eq_cons_iff.1 copies
      have token' : i'.token = .keyword word := congrArg Prod.fst hi'
      have doc' : i'.doc = i.doc := by
        rw [show i'.doc = Item.joinDocs ([] ++ linesOf i.doc) from congrArg Prod.snd hi']
        cases hd : i.doc with
        | none => rfl
        | some d =>
            exact admits.docs i (by simp [rest]) (by rw [token]; exact hword) d hd
      refine ⟨by simp [Reading.doc?, hu, doc'], ?_⟩
      have undocumented : u.undocumented =
          { u with rest := { i' with doc := none } :: cs₁' ++ us } := by
        simp [Reading.undocumented, hu]
      have next : u.token?.any startsDeclaration := by
        rw [Reading.token?_eq_some.2 ⟨i', cs₁' ++ us, hu, token'⟩]
        exact hword
      rw [← located_undocumented (declForm_undocumented next)]
      have again := @reads admits u.undocumented ({ i' with doc := none } :: cs₁') us ?_ (by rw [undocumented]) follow ends
      · rwa [show u.undocumented.recorded = u.recorded by rw [undocumented]] at again
      · change List.map _ _ = bareAfter [] _
        rw [bareAfter_cons rfl, List.map_cons, hcs₁']
        exact congrArg (fun t => (t, none) :: bareAfter [] ts) token'

end Declarations

end Grammar

end Mim
