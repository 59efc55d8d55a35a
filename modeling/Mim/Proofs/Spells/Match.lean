import Mim.Proofs.Spells.Operands

/-! # Matches are read as they are written

The first arm of a match may have a bar in front of it, which is not written. Where the
bar is left out, the arm must begin with a token that cannot be taken for anything else.
-/

namespace Mim

open Simulation (Anywhere)
open Grammar Token Mode Layout
open Nested (full)

variable {m : Mode} {P : Option Token → Prop} {l₀ : List Token} {s s' : Reading}

namespace Grammar

/-- Whether an arm with no bar in front of it may begin with a token. -/
def startsArm (t : Token) : Bool := t.startsDomain && t != .symbol .leftBrace

theorem firstArm?_run (g : Nested) (s : Reading) : firstArm? g s =
    (if s.token?.any startsArm then some <$> arm g else pure none) s := by
  unfold firstArm?
  rw [peek_bind]
  cases s.token? with
  | none => rfl
  | some t => rfl

/-- The arms of a match, after `with`. -/
def arms (g : Nested) : Parser (List Arm) := do
  let first ← firstArm? g
  let others ← many (after (.symbol .pipe) (arm g))
  return first.toList ++ others

/-- An arm, and those after a bar. -/
def barredArms (g : Nested) : Parser (List Arm) :=
  many1 (arm g) (after (.symbol .pipe) (arm g))

/-- The tokens of the arms. -/
def armsTokens (as : List Arm) : List Token := [.symbol .pipe].intercalate (as.map Arm.tokens)

theorem armsTokens_cons (a : Arm) (as : List Arm) :
    armsTokens (a :: as) = a.tokens ++ as.flatMap fun a => .symbol .pipe :: a.tokens := by
  rw [armsTokens, List.map_cons, intercalate_cons, List.flatMap_map]
  rfl

section Arms

variable {g : Nested} (hg : ∀ {σ : Simulation} {n : Nat}, σ.Nests n g g)
include hg

theorem arm_length {a : Arm} (run : arm g s = .ok a s') : s'.rest.length < s.rest.length :=
  (Simulation.InStep.onward (arm_inStep (P := Anywhere) hg) trivial run).length

theorem barredArm_advances : Advances (after (.symbol .pipe) (arm g)) :=
  after_advances fun run => Nat.le_of_lt (arm_length hg run)

/-- Where a bar comes first, the arms begin after it. -/
theorem arms_bar (hs : s.token? = some (.symbol .pipe)) : arms g s = barredArms g s.advance := by
  unfold arms
  rw [bind_congr (firstArm?_run g s), hs, if_neg (by decide), pure_bind, bind_congr (many_run (barredArm_advances hg)), bind_assoc,
    bind_congr (after_run (.symbol .pipe) (arm g) s), hs]
  simp only [Option.any_some, beq_self_eq_true, if_true, map_eq_bind, bind_assoc, pure_bind]
  rw [bind_of_ok (expect_ok.2 ⟨hs, rfl⟩)]
  rfl

omit hg in
/-- Where an arm comes first, it needs no bar. -/
theorem arms_bare (hs : s.token?.any startsArm) : arms g s = barredArms g s := by
  unfold arms barredArms many1
  rw [bind_congr (firstArm?_run g s), if_pos hs]
  simp only [map_eq_bind, bind_assoc, pure_bind]
  rfl

/-- Where neither a bar nor an arm comes first, there are no arms. -/
theorem arms_none (hs : s.token?.any (fun t => t == .symbol .pipe || startsArm t) = false) :
    arms g s = .ok [] s := by
  have apart : s.token?.any (· == .symbol .pipe) = false ∧ s.token?.any startsArm = false := by
    cases h : s.token? with
    | none => exact ⟨rfl, rfl⟩
    | some t => simpa [h] using hs
  have noBar : after (.symbol .pipe) (arm g) s = .ok none s := by
    rw [after_run, apart.1]
    rfl
  have noFirst : firstArm? g s = .ok none s := by
    rw [firstArm?_run, apart.2]
    rfl
  unfold arms
  rw [bind_of_ok noFirst, bind_congr (many_run (barredArm_advances hg)), bind_assoc,
    bind_of_ok noBar]
  rfl

end Arms

/-- An arm begins with an operand. -/
theorem arm_head {g : Nested} {a : Arm} (run : arm g s = .ok a s') :
    s.token?.any startsOperand := by
  obtain ⟨r, s₁, first, -⟩ := bind_ok.1 run
  obtain ⟨b, s₂, binder, -⟩ := bind_ok.1 (located_ok.1 first).1
  unfold Grammar.binder at binder
  rw [peek_bind] at binder
  cases hs : s.token? with
  | none =>
      rw [hs] at binder
      cases binder
  | some t =>
      rw [hs] at binder
      have other : (if t.startsOperand then do return Binder.type (← g.expr .pi)
          else unexpected "binder" : Parser Binder) s = .ok b s₂ → t.startsOperand := by
        intro run
        split at run
        · assumption
        · cases run
      cases t with
      | ident name => rfl
      | symbol sign => cases sign <;> first | rfl | exact other binder
      | _ => exact other binder

/-- The arms of a match whose first arm has a bar in front of it. -/
theorem SpelledIf.barred {as : List Arm} {t : Token} (hs : s.token? = some (.keyword .with_))
    (bar : s.advance.token? = some (.symbol .pipe)) (ht : s.advance.advance.token? = some t)
    (operand : t.startsOperand)
    (h : Spelled m .phrase [] (armsTokens as) s.advance.advance as s' (barredArms full)) :
    Spelled m .phrase [] (.keyword .with_ :: armsTokens as) s as s'
      (expect (.keyword .with_) >>= fun _ => arms full) := by
  obtain ⟨i, rest₁, hrest, token⟩ := Reading.token?_eq_some.1 hs
  have advance : s.advance = { s with rest := rest₁, lastEnd := i.span.stop } :=
    Reading.advance_eq hrest
  rw [advance] at bar ht h
  obtain ⟨j, rest₂, rfl, token'⟩ := Reading.token?_eq_some.1 bar
  change Reading.token? { s with rest := rest₂, lastEnd := j.span.stop } = some t at ht
  change Spelled m .phrase [] (armsTokens as) { s with rest := rest₂, lastEnd := j.span.stop } as s'
    (barredArms full) at h
  obtain ⟨cs, rest', recorded, told⟩ := h
  obtain rfl : rest₂ = cs ++ s'.rest := rest'
  refine ⟨i :: j :: cs, hrest, recorded, fun clean => ?_⟩
  obtain ⟨l, hl, w, hold, reads⟩ := told ⟨fun x hx => clean.tokens x (by
    rw [hrest]; exact List.mem_cons_of_mem _ (List.mem_cons_of_mem _ hx)), clean.recorded⟩
  obtain rfl : armsTokens as = l := hl
  have apart : t ≠ .symbol .pipe ∧ t ≠ .symbol .colon := by
    constructor <;> rintro rfl <;> cases operand
  have head : (cs.map Item.token).head? = some t := by
    rw [← ht, ← Reading.head?_tokens, Reading.tokens, List.map_append, head?_append hold.2.1]
  have head' : ∀ us, (undoc (armsTokens as) ++ us).head? = some t := fun us => by
    rw [← hold.1.head_append_ne_nil hold.2.1 [] us, List.append_nil, head]
  have written : undoc (.keyword .with_ :: armsTokens as) =
      .keyword .with_ :: undoc (armsTokens as) := undoc_cons rfl _
  refine ⟨.keyword .with_ :: armsTokens as, rfl, ⟨fun ts us alike => ?_, fun ms => ?_,
    fun {line} hd => ?_⟩, ?_, fun admits => ?_⟩
  · rw [written, List.map_cons, List.map_cons, token, token']
    exact (w.respells ts us alike).with_cons (by rw [head' us]; simpa using apart.1)
  · rw [List.cons_append, bareAfter_cons rfl, bareAfter_cons rfl, w.settled, List.cons_append]
  · obtain ⟨x, hx, found⟩ := w.docs ((List.mem_cons.1 hd).resolve_left (by simp))
    exact ⟨x, List.mem_cons_of_mem _ (List.mem_cons_of_mem _ hx), found⟩
  · rw [written, List.map_cons, List.map_cons, token, token']
    refine ⟨Mirrors.keyword fun ts us _ => ?_, by simp, fun _ _ => rfl⟩
    rw [head' us]
    simpa using apart.2
  intro u cs' us copies hu follow ends
  have admits' : m.Admits (cs ++ s'.rest) := admits.suffix ⟨[i, j], hrest.symm⟩
  cases m with
  | exact =>
      obtain rfl : cs' = i :: j :: cs := copies
      have first : u.token? = some (.keyword .with_) :=
        Reading.token?_eq_some.2 ⟨i, j :: cs ++ us, hu, token⟩
      have next : u.advance.token? = some (.symbol .pipe) := by
        rw [Reading.advance_eq hu]
        exact Reading.token?_eq_some.2 ⟨j, cs ++ us, rfl, token'⟩
      rw [bind_of_ok (expect_ok.2 ⟨first, rfl⟩), arms_bar Nested.nests_full_self next,
        Reading.advance_eq hu, Reading.advance_eq rfl]
      exact @reads admits' _ cs _ rfl rfl follow rfl
  | canonical =>
      change cs'.map Item.bare = _ at copies
      rw [bareAfter_cons rfl] at copies
      obtain ⟨i', cs₁, rfl, hi', copies₁⟩ := List.map_eq_cons_iff.1 copies
      have first : u.token? = some (.keyword .with_) :=
        Reading.token?_eq_some.2 ⟨i', cs₁ ++ us, hu, congrArg Prod.fst hi'⟩
      obtain ⟨ts, hts⟩ : ∃ ts, cs.map Item.token ++ s'.tokens = t :: ts := by
        obtain ⟨ts, hts⟩ := List.head?_eq_some_iff.1 head
        exact ⟨ts ++ s'.tokens, by rw [hts]; rfl⟩
      have bars : t ≠ .symbol .leftBrace ∧ t.startsDeclaration = false := by
        refine @Regular.bars _ admits _ ts ?_
        have next : s.rest.map Item.token = .keyword .with_ :: .symbol .pipe :: t :: ts := by
          rw [hrest, List.map_cons, List.map_cons, token, token', List.map_append, hts]
        exact next ▸ List.suffix_refl _
      have tokens : cs₁.map Item.token = undoc (armsTokens as) := by
        rw [← fst_bareAfter _ [], ← copies₁, List.map_map]
        rfl
      have advanced : u.advance = { u with rest := cs₁ ++ us, lastEnd := i'.span.stop } :=
        Reading.advance_eq hu
      have next : u.advance.token?.any startsArm := by
        rw [← Reading.head?_tokens, Reading.tokens, advanced, List.map_append, tokens, head']
        simp [startsArm, startsDomain, operand, bars]
      rw [bind_of_ok (expect_ok.2 ⟨first, rfl⟩), arms_bare next, advanced]
      exact reads admits' (u := { u with rest := cs₁ ++ us, lastEnd := i'.span.stop }) copies₁ rfl
        follow rfl

section Matches

variable {g : Nested} (hg : g.Spelled m)
include hg

theorem arm_spells : Spells m P .phrase [] (arm g) (arm full) Arm.tokens := by
  refine SpellsIf.node (fun p => Arm.mk p.1.1 p.1.2 p.2) ?_
    (fun _ => rfl) (fun _ => rfl) (fun _ => rfl) (fun _ _ => rfl)
  refine (binder_spells hg true).bind fun _ _ same => SpellsIf.expect rfl ?_
  refine (anyExpr_spells hg).bind fun _ _ same' => ?_
  exact SpellsIf.pure (Same.prod_iff.2 ⟨same, same'⟩) (by simp [Arm.tokens])

theorem barredArm_spells :
    Spells m P .piece [] (after (.symbol .pipe) (arm g)) (after (.symbol .pipe) (arm full))
      fun r => r.elim [] fun a => .symbol .pipe :: a.tokens :=
  SpellsIf.after (Grade.leads_plain rfl) rfl rfl (arm_spells hg)

theorem barredArms_spells :
    Spells m P .phrase [] (barredArms g) (barredArms full) armsTokens := by
  have parts := (arm_spells hg (P := P)).many1 (barredArm_advances hg.inStep)
    (barredArm_advances Nested.nests_full_self) (barredArm_spells hg)
  intro s as s' hs run
  have spelled := parts s as s' hs run
  obtain ⟨a, s₁, -, rest⟩ := bind_ok.1 run
  obtain ⟨as, s₂, -, done⟩ := bind_ok.1 rest
  obtain ⟨rfl, rfl⟩ := pure_ok.1 done
  rw [armsTokens_cons]
  exact spelled

theorem withArms_spells :
    Spells m P .phrase [] (expect (.keyword .with_) >>= fun _ => arms g)
      (expect (.keyword .with_) >>= fun _ => arms full)
      fun as => .keyword .with_ :: armsTokens as := by
  intro s as s' _ run
  obtain ⟨_, s₁, first, rest⟩ := bind_ok.1 run
  obtain ⟨hs, rfl⟩ := expect_ok.1 first
  have opened : ∀ {u : Reading}, u.token? = some (.keyword .with_) →
      (expect (.keyword .with_) >>= fun _ => arms full) u = arms full u.advance :=
    fun hu => bind_of_ok (expect_ok.2 ⟨hu, rfl⟩)
  by_cases bar : s.advance.token? = some (.symbol .pipe)
  · rw [arms_bar hg.inStep bar] at rest
    obtain ⟨a, s₂, head, -⟩ := bind_ok.1 rest
    obtain ⟨t, ht, operand⟩ := (Option.any_eq_true _ _).1 (arm_head head)
    exact SpelledIf.barred hs bar ht operand
      (barredArms_spells (P := Anywhere) hg _ _ _ trivial rest)
  have lead : Grade.Leads (.keyword .with_) .piece .phrase := Grade.leads_plain rfl
  refine SpelledIf.token lead hs opened ?_
  by_cases bare : s.advance.token?.any startsArm
  · rw [arms_bare bare] at rest
    have spelled := barredArms_spells (P := Anywhere) hg _ _ _ trivial rest
    refine (spelled.shift.of_head ?_).weaken id Grade.IsLoose.loosen
    exact fun {u} head _ => arms_bare (by rwa [head])
  · have none_ : s.advance.token?.any (fun t => t == .symbol .pipe || startsArm t) = false := by
      cases ht : s.advance.token? with
      | none => rfl
      | some t =>
          rw [ht] at bar bare
          simpa using ⟨fun e => bar (congrArg some e), by simpa using bare⟩
    rw [arms_none hg.inStep none_] at rest
    cases rest
    refine SpelledIf.nothing rfl rfl (List.suffix_refl _) fun {u} follow => ?_
    refine ⟨[], u, arms_none Nested.nests_full_self ?_, rfl, rfl, rfl, rfl⟩
    rw [← Reading.head?_tokens, ← head_look] at none_ ⊢
    refine follow.stops (c := fun seen => seen.1.any fun t => t == .symbol .pipe || startsArm t)
      rfl (fun t ht => ?_) none_
    have notPipe : t ≠ .symbol .pipe := by rintro rfl; rcases ht with ht | ht <;> cases ht
    simp [startsArm, startsDomain_stops t ht, notPipe]

theorem match_spells : Spells m P .phrase [] (match_ g) (match_ full)
    fun form => form.layout.tokens := by
  have parts : ∀ g, match_ g = expect (.keyword .match_) >>= fun _ => anyExpr g >>= fun e =>
      (expect (.keyword .with_) >>= fun _ => arms g) >>= fun as => pure (.match_ e as) := by
    intro g
    simp [match_, arms]
  rw [parts, parts]
  refine SpellsIf.expect rfl ((anyExpr_spells hg).bind fun e e' same => ?_)
  refine (withArms_spells hg).loosen.append fun as _ same' => ?_
  refine SpellsIf.pure (Same.map₂ (fun _ _ => Form.respan_match ..) same same') ?_
  simp [Form.layout, tokens_join, Arm.tokens_layouts, armsTokens]

end Matches

end Grammar

end Mim
