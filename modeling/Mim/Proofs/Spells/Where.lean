import Mim.Proofs.Spells.Semicolons

/-! # The declarations of a `where`

Here any number of semicolons may stand between two declarations, and what is broken is
passed over, but not in a clean run.
-/

namespace Mim

open Simulation (Anywhere)
open Grammar Token Mode Layout
open Nested (full)

variable {α β : Type} [Spanned α] [Spanned β] {F : List Token → List Token → Prop} {m : Mode}
  {k : Grade} {l₀ l l₁ : List Token} {s s₁ s₂ s' : Reading} {a : α} {b : β}

/-- A declaration that is read again is no placeholder. -/
theorem SpelledIf.unbroken {inWhere : Bool} {d : Decl} {q : Parser Decl}
    (h : SpelledIf F m k l₀ l s d s' q) :
    SpelledIf F m k l₀ l s d s' (declarationOrError inWhere q) := by
  obtain ⟨cs, rest, recorded, told⟩ := h
  refine ⟨cs, rest, recorded, fun clean => ?_⟩
  obtain ⟨l₁, hl, w, hold, reads⟩ := told clean
  refine ⟨l₁, hl, w, hold, fun admits => ?_⟩
  intro u cs' us copies hu follow ends
  obtain ⟨d', u', run, facts⟩ := reads admits copies hu follow ends
  exact ⟨d', u', bind_ok.2 ⟨.ok d', u', recovering_ok run, rfl⟩, facts⟩

namespace Grammar

section Recovery

variable {g : Nested}

/-- In a clean run nothing is recovered from. -/
theorem recovering_clean {inWhere : Bool} {p : Parser α} {r : Except Span α}
    (hp : (Simulation.onward s).InStep (· ≠ none) 1 (s.rest.length + 1) p p) (hs : s.token? ≠ none)
    (run : recovering inWhere p s = .ok r s') (clean : Clean s s') :
    ∃ a, r = .ok a ∧ p s = .ok a s' := by
  cases hps : p s with
  | ok a s₁ =>
      rw [recovering_ok hps] at run
      cases run
      exact ⟨a, rfl, rfl⟩
  | error e s₁ =>
      rw [recovering_error hps] at run
      cases run
      obtain ⟨onward, blames⟩ := hp.onward_error hs hps
      have told : e.isReported = false → False := fun he => by
        have noted := clean.recorded ⟨.grammar e.fault, e.span⟩
          (by rw [Reading.recorded_recover]; simp [Reading.report, he, Reading.record])
        cases noted
      cases blames with
      | broken _ ht =>
          obtain ⟨i, rest, hrest, token⟩ := Reading.token?_eq_some.1 ht
          exact absurd token (clean.tokens i (onward.rest.subset (by simp [hrest])) _)
      | token he => exact (told he).elim
      | stop _ he => exact (told (by rw [he]; rfl)).elim

/-- A declaration of a `where`, or nothing for a semicolon between two. -/
def wherePart? (g : Nested) : Parser (Option (Option Decl)) := do
  if ← accept (.symbol .semicolon) then return some none
  match ← peek with
  | none | some (.keyword .end_) => return none
  | some _ => return some (some (← declarationOrError true (declaration g)))

theorem wherePart?_semicolon (hs : s.token? = some (.symbol .semicolon)) :
    wherePart? g s = .ok (some none) s.advance := by
  unfold wherePart?
  rw [bind_of_ok (accept_ok.2 (.inl ⟨rfl, hs, rfl⟩))]
  rfl

theorem wherePart?_end (hs : s.token? = none ∨ s.token? = some (.keyword .end_)) :
    wherePart? g s = .ok none s := by
  unfold wherePart?
  rw [bind_of_ok (accept_ok.2 (.inr ⟨rfl, by rcases hs with hs | hs <;> simp [hs], rfl⟩))]
  change (peek >>= _) s = _
  rw [peek_bind]
  rcases hs with hs | hs <;> (rw [hs]; rfl)

theorem wherePart?_declaration {t : Token} (hs : s.token? = some t) (apart : t ≠ .symbol .semicolon)
    (inside : t ≠ .keyword .end_) :
    wherePart? g s =
      (declarationOrError true (declaration g) >>= fun d => pure (some (some d))) s := by
  unfold wherePart?
  rw [bind_of_ok (accept_ok.2 (.inr ⟨rfl, by simpa [hs] using apart, rfl⟩))]
  change (peek >>= _) s = _
  rw [peek_bind, hs]
  cases t with
  | keyword word => cases word <;> first | rfl | exact absurd rfl inside
  | _ => rfl

theorem declarationOrError_length (hg : ∀ {σ : Simulation} {n : Nat}, σ.Nests n g g)
    {inWhere : Bool} {d : Decl} {t : Token} (hs : s.token? = some t)
    (run : declarationOrError inWhere (declaration g) s = .ok d s') :
    s'.rest.length < s.rest.length := by
  have inStep : (Simulation.onward s).InStep (· ≠ none) 1 (s.rest.length + 1)
      (declarationOrError inWhere (declaration g)) (declarationOrError inWhere (declaration g)) :=
    declarationOrError_inStep (declaration_inStep hg) fun _ h => h
  exact (inStep.onward (by simp [hs]) run).length

theorem wherePart?_advances (hg : ∀ {σ : Simulation} {n : Nat}, σ.Nests n g g) :
    Advances (wherePart? g) := by
  intro s part s' run
  cases hs : s.token? with
  | none =>
      rw [wherePart?_end (.inl hs)] at run
      cases run
  | some t =>
      by_cases apart : t = .symbol .semicolon
      · subst apart
        rw [wherePart?_semicolon hs] at run
        cases run
        exact Nat.lt_of_succ_le (Nat.le_of_eq (Reading.length_advance hs))
      · by_cases inside : t = .keyword .end_
        · subst inside
          rw [wherePart?_end (.inr hs)] at run
          cases run
        · rw [wherePart?_declaration hs apart inside] at run
          obtain ⟨d, s₁, first, done⟩ := bind_ok.1 run
          obtain ⟨-, rfl⟩ := pure_ok.1 done
          exact declarationOrError_length hg hs first

section Body

variable (hg : ∀ {σ : Simulation} {n : Nat}, σ.Nests n g g)
include hg

/-- The body of a `where` is unrolled at its first part. -/
theorem whereBody_run : whereBody g s = (wherePart? g >>= fun
    | none => expect (.keyword .end_) >>= fun _ => pure []
    | some part => whereBody g >>= fun ds => pure (part.toList ++ ds)) s := by
  have parts : whereBody g = many (wherePart? g) >>= fun parts =>
      expect (.keyword .end_) >>= fun _ => pure (parts.filterMap id) := rfl
  rw [parts, bind_congr (many_run (wherePart?_advances hg)), bind_assoc]
  refine congrFun (congrArg (wherePart? g >>= ·) (funext fun part => ?_)) s
  cases part with
  | none => rfl
  | some part => cases part <;> simp

theorem whereBody_end (hs : s.token? = some (.keyword .end_)) :
    whereBody g s = .ok [] s.advance := by
  rw [whereBody_run hg, bind_of_ok (wherePart?_end (.inr hs))]
  exact bind_of_ok (expect_ok.2 ⟨hs, rfl⟩)

theorem whereBody_semicolon (hs : s.token? = some (.symbol .semicolon)) :
    whereBody g s = whereBody g s.advance := by
  rw [whereBody_run hg, bind_of_ok (wherePart?_semicolon hs)]
  exact congrFun (bind_pure (whereBody g)) _

theorem whereBody_declaration {t : Token} (hs : s.token? = some t) (apart : t ≠ .symbol .semicolon)
    (inside : t ≠ .keyword .end_) :
    whereBody g s = (declarationOrError true (declaration g) >>= fun d =>
      whereBody g >>= fun ds => pure (d :: ds)) s := by
  rw [whereBody_run hg, bind_congr (wherePart?_declaration hs apart inside), bind_assoc]
  rfl

end Body

end Recovery

section Written

variable {g : Nested}

/-- A declaration begins with its keyword. -/
theorem declaration_head {d : Decl} (run : declaration g s = .ok d s') :
    s.token?.any startsDeclaration := by
  obtain ⟨r, s₁, first, -⟩ := bind_ok.1 (show (located (declForm g) >>= fun r =>
    pure (Decl.mk s.doc? r.1 r.2)) s = .ok d s' from run)
  have form := (located_ok.1 first).1
  unfold declForm at form
  rw [peek_bind] at form
  cases hs : s.token? with
  | none =>
      rw [hs] at form
      cases form
  | some t =>
      rw [hs] at form
      cases t with
      | keyword word => cases word <;> first | rfl | cases form
      | _ => cases form

/-- The tokens of the body of a `where`. -/
def whereTokens (ds : List Decl) : List Token := (Decl.innerLayout ds).tokens ++ [.keyword .end_]

theorem whereTokens_cons (d : Decl) (ds : List Decl) :
    whereTokens (d :: ds) = d.layout.tokens ++ [.symbol .semicolon] ++ whereTokens ds := by
  simp [whereTokens, Decl.innerLayout]

/-- Declarations inside an expression begin with a keyword of theirs, or with a semicolon. -/
theorem head_undoc_innerLayout (ds : List Decl) :
    ∀ t ∈ (undoc (Decl.innerLayout ds).tokens).head?, t = .symbol .semicolon ∨ t.startsDeclaration := by
  cases ds with
  | nil => exact fun _ h => nomatch h
  | cons d ds =>
      obtain ⟨doc, form, place⟩ := d
      rw [Decl.tokens_innerLayout, List.flatMap_cons, tokens_decl, List.append_assoc,
        List.append_assoc, undoc_docs]
      by_cases h : form.layout.tokens = []
      · rw [h]
        rintro _ ⟨⟩
        exact .inl rfl
      · obtain ⟨word, ts, declares, eq⟩ := tokens_declForm_cons form h
        rw [eq]
        rintro _ ⟨⟩
        exact .inr declares

/-- The body of a `where` begins with a declaration, or with a semicolon or the end. -/
theorem undoc_whereTokens (ds : List Decl) :
    ∃ t ts, undoc (whereTokens ds) = t :: ts ∧ t ≠ .symbol .pipe ∧ t ≠ .symbol .colon := by
  rw [whereTokens, undoc_append]
  have head := head_undoc_innerLayout ds
  cases hl : undoc (Decl.innerLayout ds).tokens with
  | nil => exact ⟨_, _, rfl, by simp, by simp⟩
  | cons t ts =>
      refine ⟨t, _, rfl, ?_, ?_⟩ <;> rintro rfl <;>
        exact absurd (head _ (by rw [hl]; rfl)) (by decide)

/-- A semicolon in front of the body says nothing, and is not written. -/
theorem whereBody_after_semicolon {ds : List Decl} (hs : s.token? = some (.symbol .semicolon))
    (h : Spelled m .fragment [] (whereTokens ds) s.advance ds s' (whereBody full)) :
    Spelled m .fragment [] (whereTokens ds) s ds s' (whereBody full) := by
  obtain ⟨i, rest, hrest, token⟩ := Reading.token?_eq_some.1 hs
  have advance : s.advance = { s with rest, lastEnd := i.span.stop } :=
    Reading.advance_eq hrest
  rw [advance] at h
  obtain ⟨cs, rest', recorded, told⟩ := h
  obtain ⟨t, ts, written, bar, colon⟩ := undoc_whereTokens ds
  have whole : s.rest = i :: cs ++ s'.rest := by
    rw [hrest, show rest = cs ++ s'.rest from rest']
    rfl
  refine ⟨i :: cs, whole, recorded, fun clean => ?_⟩
  obtain ⟨l₁, hl, w, hold, reads⟩ :=
    told ⟨fun j hj => clean.tokens j (by rw [hrest]; exact List.mem_cons_of_mem _ hj), clean.recorded⟩
  obtain rfl : whereTokens ds = l₁ := hl
  refine ⟨whereTokens ds, rfl, ⟨fun ts us alike => ?_, w.settled, fun hd => ?_⟩, ?_,
    fun admits => ?_⟩
  · rw [List.map_cons, token]
    exact (w.respells ts us alike).semicolon_left (by rw [written]; simpa using bar)
  · obtain ⟨j, hj, found⟩ := w.docs hd
    exact ⟨j, List.mem_cons_of_mem _ hj, found⟩
  · rw [List.map_cons, token, written]
    exact ⟨by simp, by simp, by simpa using colon⟩
  intro u cs' us copies hu follow ends
  have admits' : m.Admits rest := admits.suffix (by rw [hrest]; exact List.suffix_cons _ _)
  cases m with
  | exact =>
      obtain rfl : cs' = i :: cs := copies
      have first : u.token? = some (.symbol .semicolon) :=
        Reading.token?_eq_some.2 ⟨i, cs ++ us, hu, token⟩
      have advanced : u.advance = { u with rest := cs ++ us, lastEnd := i.span.stop } :=
    Reading.advance_eq hu
      rw [whereBody_semicolon Nested.nests_full_self first, advanced]
      exact reads admits' (u := { u with rest := cs ++ us, lastEnd := i.span.stop }) rfl rfl follow rfl
  | canonical => exact reads admits' copies hu follow rfl

variable (hg : g.Spelled m)
include hg

theorem whereBody_onward {ds : List Decl} (run : whereBody g s = .ok ds s') : s.Onward 1 s' :=
  Simulation.InStep.onward (P := Anywhere) (whereBody_inStep hg.inStep) trivial run

/-- In a clean run a declaration is read, and no placeholder for it. -/
theorem declarationOrError_clean {inWhere : Bool} {d : Decl} {t : Token} (hs : s.token? = some t)
    (run : declarationOrError inWhere (declaration g) s = .ok d s') (clean : Clean s s') :
    declaration g s = .ok d s' := by
  obtain ⟨r, s₁, first, rest⟩ := bind_ok.1 run
  have same : s₁ = s' := by
    cases r <;> exact (pure_ok.1 rest).2
  subst same
  obtain ⟨d', rfl, decl⟩ := recovering_clean
    (declaration_inStep (σ := .onward s) (m := s.rest.length) hg.inStep) (by simp [hs]) first clean
  rwa [← (pure_ok.1 rest).1]

/-- What a clean run of the body begins with. -/
theorem whereBody_ok {ds : List Decl} (run : whereBody g s = .ok ds s') (clean : Clean s s') :
    s.token? = some (.keyword .end_) ∧ ds = [] ∧ s' = s.advance ∨
    s.token? = some (.symbol .semicolon) ∧ whereBody g s.advance = .ok ds s' ∨
    s.token?.any startsDeclaration ∧ ∃ d ds' s₁, ds = d :: ds' ∧ declaration g s = .ok d s₁ ∧
      whereBody g s₁ = .ok ds' s' := by
  cases hs : s.token? with
  | none =>
      rw [whereBody_run hg.inStep, bind_of_ok (wherePart?_end (.inl hs))] at run
      obtain ⟨_, s₁, ends, -⟩ := bind_ok.1 run
      rw [(expect_ok.1 ends).1] at hs
      cases hs
  | some t =>
      by_cases inside : t = .keyword .end_
      · subst inside
        rw [whereBody_end hg.inStep hs] at run
        cases run
        exact .inl ⟨rfl, rfl, rfl⟩
      · by_cases apart : t = .symbol .semicolon
        · subst apart
          rw [whereBody_semicolon hg.inStep hs] at run
          exact .inr (.inl ⟨rfl, run⟩)
        · rw [whereBody_declaration hg.inStep hs apart inside] at run
          obtain ⟨d, s₁, first, rest⟩ := bind_ok.1 run
          obtain ⟨ds', s₂, tail, done⟩ := bind_ok.1 rest
          obtain ⟨rfl, rfl⟩ := pure_ok.1 done
          have recorded := (whereBody_onward hg tail).recorded
          have decl := declarationOrError_clean hg hs first
            ⟨clean.tokens, fun d hd => clean.recorded d (recorded.subset hd)⟩
          have head := declaration_head decl
          rw [hs] at head
          exact .inr (.inr ⟨head, d, ds', s₁, rfl, decl, tail⟩)

/-- The token that a clean run of the body begins with looks the same whatever follows. -/
theorem whereBody_head {ds : List Decl} (run : whereBody g s = .ok ds s') (clean : Clean s s') :
    ∃ t, s.token? = some t ∧ t.isPlain ∧ t ≠ .symbol .pipe ∧ t ≠ .symbol .colon := by
  rcases whereBody_ok hg run clean with ⟨hs, -⟩ | ⟨hs, -⟩ | ⟨hs, -⟩
  · exact ⟨_, hs, rfl, by simp, by simp⟩
  · exact ⟨_, hs, rfl, by simp, by simp⟩
  · cases ht : s.token? with
    | none => rw [ht] at hs; cases hs
    | some t =>
        rw [ht] at hs
        cases t with
        | keyword word =>
            refine ⟨_, rfl, ?_, by simp, by simp⟩
            cases word <;> first | rfl | cases hs
        | _ => cases hs

theorem whereBody_spells : Spells m P .fragment [] (whereBody g) (whereBody full) whereTokens := by
  intro s ds s' hP run
  clear hP
  induction hn : s.rest.length using Nat.strongRecOn generalizing s ds s' with
  | ind n ih =>
      subst hn
      by_cases clean : Clean s s'
      case neg => exact SpelledIf.of_not_clean (whereBody_onward hg run) clean
      rcases whereBody_ok hg run clean with ⟨hs, rfl, rfl⟩ | ⟨hs, rest⟩ |
        ⟨declares, d, ds, s₁, rfl, decl, rest⟩
      · have lead : Grade.Leads (.keyword .end_) .piece .phrase := Grade.leads_plain rfl
        refine SpelledIf.fragment (SpelledIf.token (f := pure []) lead hs
          (fun hu => whereBody_end Nested.nests_full_self hu) ?_) (by simp [hs])
        exact SpelledIf.pure rfl
      · have shorter := Reading.length_advance hs
        exact whereBody_after_semicolon hs (ih _ (by omega) s.advance ds s' rest rfl)
      · have length :=
          (Simulation.InStep.onward (P := Anywhere) (declaration_inStep hg.inStep) trivial decl).length
        have inner := ih _ (by omega) s₁ ds s' rest rfl
        have spelled := declaration_spells (P := Anywhere) hg s d s₁ trivial decl
        obtain ⟨t, ht, declares'⟩ := (Option.any_eq_true _ _).1 declares
        have apart : t ≠ .symbol .semicolon ∧ t ≠ .keyword .end_ ∧ t ≠ .symbol .colon := by
          refine ⟨?_, ?_, ?_⟩ <;> rintro rfl <;> cases declares'
        refine SpelledIf.fragment (SpelledIf.of_head (q := declarationOrError true (declaration full) >>=
          fun d => whereBody full >>= fun ds => pure (d :: ds)) ?_ fun {u} head _ => ?_)
          (by simp [ht, apart])
        · rw [whereTokens_cons]
          refine spelled.unbroken.declared_end declares (fun clean t ht => ?_) (fun {d u} hu => ?_)
            (fun _ => rfl) (fun d' same => SpelledIf.map inner.shift fun ds' sames => same.cons sames)
            fun {cs} clean hcs => ?_
          · obtain ⟨t', ht', -, apart⟩ := whereBody_head hg rest clean
            obtain rfl : t' = t := Option.some.inj (ht'.symm.trans ht)
            exact apart
          · exact bind_congr (whereBody_semicolon Nested.nests_full_self hu)
          · obtain ⟨t', ht', plain, -⟩ := whereBody_head hg rest clean
            have shorter := (whereBody_onward hg rest).length
            cases cs with
            | nil =>
                rw [hcs, List.nil_append] at shorter
                omega
            | cons i cs =>
                obtain rfl : i.token = t' := by simpa [Reading.token?, hcs] using ht'
                intro ts us
                simp only [List.map_cons, List.cons_append, Grade.look_plain plain]
        · exact whereBody_declaration Nested.nests_full_self (head.trans ht) apart.1 apart.2.1

end Written

end Grammar

end Mim
