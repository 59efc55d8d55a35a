import Mim.Proofs.Spells.Docs

/-! # Semicolons between declarations

A declaration inside an expression is written with a semicolon after it, whether it was
read with one or without.
-/

namespace Mim

open Simulation (Anywhere)
open Grammar Token Mode Layout
open Nested (full)

variable {α β : Type} [Spanned α] [Spanned β] {F : List Token → List Token → Prop} {m : Mode}
  {k : Grade} {l₀ l l₁ : List Token} {s s₁ s₂ s' : Reading} {a : α} {b : β}

/-- A phrase that begins with a keyword stays one, whatever else follows it on either side. -/
theorem Token.Grade.phrase_keyword {xs ys zs ws : List Token} {word : Keyword}
    (h : phrase.Holds xs ys) (head : xs.head? = some (.keyword word)) (nz : zs ≠ []) (nw : ws ≠ [])
    (hz : zs.head? ≠ some (.symbol .colon)) (hw : ws.head? ≠ some (.symbol .colon)) :
    phrase.Holds (xs ++ zs) (ys ++ ws) := by
  obtain ⟨mirrors, ne, looks⟩ := h
  have head' : ys.head? = some (.keyword word) := mirrors.head ▸ head
  obtain ⟨xs, rfl⟩ : ∃ xs', xs = .keyword word :: xs' := by
    cases xs with
    | nil => cases head
    | cons x xs => exact ⟨xs, by rw [Option.some.inj head]⟩
  obtain ⟨ys, rfl⟩ : ∃ ys', ys = .keyword word :: ys' := by
    cases ys with
    | nil => cases head'
    | cons y ys => exact ⟨ys, by rw [Option.some.inj head']⟩
  have colon : ∀ {zs : List Token} (ts : List Token), zs ≠ [] →
      zs.head? ≠ some (.symbol .colon) → (zs ++ ts).head? ≠ some (.symbol .colon) := by
    intro zs ts nz hz
    cases zs with
    | nil => exact absurd rfl nz
    | cons z zs => exact hz
  refine ⟨Mirrors.keyword fun ts us _ => ?_, by simp, looks.append⟩
  have second := @Mirrors.second _ _ mirrors (zs ++ ts) (ws ++ us) ne
    ⟨fun e => absurd e (colon ts nz hz), fun e => absurd e (colon us nw hw)⟩
  simpa [← List.head?_eq_getElem?] using second

/-- A declaration and a semicolon after it. -/
theorem SpelledIf.declared {q : Parser α} {f g : α → Parser β}
    (h : Spelled m .phrase l₀ l₁ s a s₁ q) (hs₁ : s₁.token? = some (.symbol .semicolon))
    (hg : ∀ {a u}, u.token? = some (.symbol .semicolon) → g a u = f a u.advance)
    (rest : ∀ a', m.Same a a' →
      SpelledIf F m k (l₁ ++ [.symbol .semicolon]) l s₁.advance b s' (f a')) :
    SpelledIf F m .phrase l₀ l s b s' (q >>= g) :=
  h.and_then (fun a' same => SpelledIf.token (Grade.leads_shut_tail rfl) hs₁ hg (rest a' same))
    (fun tail _ => (tail _ (.inr rfl) _ _).1.follow)
    fun hold tail => Grade.IsWhole.phrase (Grade.phrase_tail hold tail)

/-- A declaration is written with a semicolon after it. -/
theorem SpelledIf.declared_end {q : Parser α} {f g : α → Parser β}
    (h : Spelled m .phrase l₀ l₁ s a s₁ q) (declares : s.token?.any startsDeclaration)
    (ahead : Clean s₁ s' → ∀ t ∈ s₁.token?, t ≠ .symbol .pipe ∧ t ≠ .symbol .colon)
    (hg : ∀ {a u}, u.token? = some (.symbol .semicolon) → g a u = f a u.advance)
    (hg' : ∀ {a u}, u.token? = s₁.token? → g a u = f a u)
    (rest : ∀ a', m.Same a a' →
      SpelledIf F m k (l₁ ++ [.symbol .semicolon]) l s₁ b s' (f a'))
    (self : ∀ {cs}, Clean s₁ s' → s₁.rest = cs ++ s'.rest →
      LooksAlike (cs.map Item.token) (cs.map Item.token)) :
    SpelledIf F m .phrase l₀ l s b s' (q >>= g) := by
  obtain ⟨cs₁, rest₁, rec₁, told₁⟩ := h
  obtain ⟨cs₂, rest₂, rec₂, told₂⟩ := rest a (Same.refl a)
  refine ⟨cs₁ ++ cs₂, by rw [rest₁, rest₂, List.append_assoc], rec₁.trans rec₂, fun clean => ?_⟩
  obtain ⟨clean₁, clean₂⟩ := clean.split rest₁ rec₂
  have self₂ := self clean₂ rest₂
  have head₂ : s₁.token? = (cs₂.map Item.token).head? := by
    rw [← Reading.head?_tokens, Reading.tokens, rest₂, List.map_append, head?_append self₂.ne_nil]
  obtain ⟨l₂, rfl, w₁, hold, reads₁⟩ := told₁ clean₁
  obtain ⟨l₃, hl₃, w₂, -, -⟩ := told₂ clean₂
  have behind : l = l₀ ++ l₂ ++ [.symbol .semicolon] ++ l₃ := by simp [hl₃]
  have head : (cs₁.map Item.token).head? = s.token? := by
    rw [← Reading.head?_tokens, Reading.tokens, rest₁, List.map_append, head?_append hold.2.1]
  obtain ⟨word, hword⟩ : ∃ word, (cs₁.map Item.token).head? = some (.keyword word) := by
    rw [head]
    cases hs : s.token? with
    | none => rw [hs] at declares; cases declares
    | some t =>
        rw [hs] at declares
        cases t with
        | keyword word => exact ⟨word, rfl⟩
        | _ => cases declares
  have apart : ∀ t, t = .symbol .pipe ∨ t = .symbol .colon →
      (cs₂.map Item.token).head? ≠ some t := by
    intro t ht hc
    have no := ahead clean₂ t (by rw [head₂, hc]; rfl)
    rcases ht with rfl | rfl
    · exact no.1 rfl
    · exact no.2 rfl
  have undoc_eq : undoc (l₂ ++ .symbol .semicolon :: l₃) =
      undoc l₂ ++ .symbol .semicolon :: undoc l₃ := by
    rw [undoc_append, undoc_cons rfl]
  refine ⟨l₂ ++ .symbol .semicolon :: l₃, by simp [hl₃], ⟨?_, fun ms => ?_, fun {line} hd => ?_⟩,
    ?_, fun admits => ?_⟩
  · rw [undoc_eq, List.map_append]
    exact w₁.respells.semicolon w₂.respells self₂.ne_nil (apart _ (.inl rfl))
  · rw [List.append_assoc, w₁.settled, w₁.settled, List.cons_append, bareAfter_cons rfl,
      bareAfter_cons rfl, w₂.settled, List.append_assoc, List.cons_append]
  · rcases List.mem_append.1 hd with hd | hd
    · obtain ⟨i, hi, found⟩ := w₁.docs hd
      exact ⟨i, List.mem_append_left _ hi, found⟩
    · obtain ⟨i, hi, found⟩ := w₂.docs ((List.mem_cons.1 hd).resolve_left (by simp))
      exact ⟨i, List.mem_append_right _ hi, found⟩
  · rw [undoc_eq, List.map_append]
    exact Grade.phrase_keyword hold hword self₂.ne_nil (by simp) (apart _ (.inr rfl))
      (by simp)
  intro u cs' us copies hu follow ends
  have admits₂ : m.Admits s₁.rest := admits.suffix ⟨cs₁, rest₁.symm⟩
  cases m with
  | exact =>
      obtain rfl : cs' = cs₁ ++ cs₂ := copies
      have boundary : Follow s₁.tokens ((cs₂ ++ us).map Item.token) := by
        rw [Reading.tokens, rest₂, List.map_append, List.map_append]
        exact Looks.follow (self₂ _ _)
      obtain ⟨a', u₁, run₁, same, hu₁, ends₁, errors₁⟩ :=
        @reads₁ admits _ cs₁ _ rfl (by rw [hu, List.append_assoc]) boundary ends
      have next : u₁.token? = s₁.token? := by
        rw [← Reading.head?_tokens, Reading.tokens, hu₁, List.map_append, head?_append self₂.ne_nil,
          head₂]
      obtain ⟨b', u', run₂, same', facts, ends', errors'⟩ :=
        (rest a' same).rereads clean₂ admits₂ rest₂ behind rfl hu₁ follow ends₁
      exact ⟨b', u', by rw [bind_of_ok run₁, hg' next, run₂], same', facts, ends',
        errors'.trans errors₁⟩
  | canonical =>
      change cs'.map Item.bare = _ at copies
      rw [w₁.settled, bareAfter_cons rfl] at copies
      obtain ⟨cs₁', rest', rfl, copies₁, tail⟩ := List.map_eq_append_iff.1 copies
      obtain ⟨i, cs₂', rfl, hi, copies₂⟩ := List.map_eq_cons_iff.1 tail
      have token : i.token = .symbol .semicolon := congrArg Prod.fst hi
      have boundary : Follow s₁.tokens ((i :: cs₂' ++ us).map Item.token) := by
        refine .inl (.inr ⟨?_, by simp [token, isShut]⟩)
        rw [Reading.head?_tokens, head₂]
        exact apart _ (.inr rfl)
      obtain ⟨a', u₁, run₁, same, hu₁, ends₁, errors₁⟩ :=
        reads₁ admits copies₁ (by rw [hu, List.append_assoc]) boundary ends
      have next : u₁.token? = some (.symbol .semicolon) :=
        Reading.token?_eq_some.2 ⟨i, cs₂' ++ us, hu₁, token⟩
      have advanced : u₁.advance = { u₁ with rest := cs₂' ++ us, lastEnd := i.span.stop } :=
    Reading.advance_eq hu₁
      obtain ⟨b', u', run₂, same', facts, ends', errors'⟩ :=
        (rest a' same).rereads (u := u₁.advance) clean₂ admits₂ rest₂ behind
          copies₂ (by rw [advanced]) follow rfl
      refine ⟨b', u', by rw [bind_of_ok run₁, hg next, run₂], same', facts, ends', ?_⟩
      rw [errors', advanced]
      exact errors₁

namespace Grammar

section Blocks

variable {g : Nested} {P : Option Token → Prop}

/-- What stands inside a block: declarations, and the expression after them. -/
def blockParts (g : Nested) : Parser (List Decl × Expr) := do
  let declarations ← many (blockDeclaration? g)
  return (declarations, ← anyExpr g)

theorem blockDeclaration?_run (g : Nested) (s : Reading) : blockDeclaration? g s =
    (if s.token?.any startsDeclaration then do
      let d ← declaration g
      discard (accept (.symbol .semicolon))
      return some d
    else return none) s := by
  unfold blockDeclaration?
  rw [peek_bind]
  cases s.token? with
  | none => rfl
  | some t => cases h : t.startsDeclaration <;> simp [h]

omit [Spanned α] in
/-- The semicolon after a declaration is passed over, if it is there. -/
theorem discard_semicolon {f : Unit → Parser α} :
    (discard (accept (.symbol .semicolon)) >>= f) s =
      f () (if s.token? = some (.symbol .semicolon) then s.advance else s) := by
  rw [discard_eq_bind, bind_assoc]
  by_cases h : s.token? = some (.symbol .semicolon)
  · rw [bind_of_ok (accept_ok.2 (.inl ⟨rfl, h, rfl⟩)), if_pos h]
    rfl
  · rw [bind_of_ok (accept_ok.2 (.inr ⟨rfl, h, rfl⟩)), if_neg h]
    rfl

theorem blockDeclaration?_advances (hg : ∀ {σ : Simulation} {n : Nat}, σ.Nests n g g) :
    Advances (blockDeclaration? g) := by
  intro s d s' run
  rw [blockDeclaration?_run] at run
  split at run
  · obtain ⟨d, s₁, first, rest⟩ := bind_ok.1 run
    rw [discard_semicolon] at rest
    obtain ⟨-, rfl⟩ := pure_ok.1 rest
    have length := (Simulation.InStep.onward (P := Anywhere) (declaration_inStep hg) trivial first).length
    split
    · next ht =>
        have shorter := Reading.length_advance ht
        omega
    · exact length
  · cases (pure_ok.1 run).1

/-- The tokens of what stands inside a block. -/
def blockPartsTokens (r : List Decl × Expr) : List Token :=
  (Decl.innerLayout r.1).tokens ++ r.2.layout.tokens

theorem blockPartsTokens_cons (d : Decl) (r : List Decl × Expr) :
    blockPartsTokens (d :: r.1, r.2) =
      d.layout.tokens ++ [.symbol .semicolon] ++ blockPartsTokens r := by
  simp [blockPartsTokens, Decl.innerLayout]

/-- A block is unrolled at its first declaration. -/
theorem blockParts_run (hg : ∀ {σ : Simulation} {n : Nat}, σ.Nests n g g) (s : Reading) :
    blockParts g s = (if s.token?.any startsDeclaration then do
      let d ← declaration g
      discard (accept (.symbol .semicolon))
      let r ← blockParts g
      return (d :: r.1, r.2)
    else do return ([], ← anyExpr g)) s := by
  unfold blockParts
  rw [bind_congr (many_run (blockDeclaration?_advances hg))]
  rw [bind_assoc, bind_congr (blockDeclaration?_run g s)]
  split
  · simp only [bind_assoc, pure_bind]
  · simp only [pure_bind]

variable (hg : g.Spelled m)
include hg

/-- What stands inside a block begins with a declaration or with an operand. -/
theorem blockParts_head {r : List Decl × Expr} (run : blockParts g s = .ok r s') :
    s.token?.any startsDeclaration ∨ s.token?.any startsOperand := by
  rw [blockParts_run hg.inStep] at run
  split at run
  · next declares => exact .inl declares
  · obtain ⟨e, s₁, first, -⟩ := bind_ok.1 run
    exact .inr (hg.head first)

theorem blockParts_spells :
    Spells m P .phrase [] (blockParts g) (blockParts full) blockPartsTokens := by
  intro s r s' hP run
  clear hP
  induction hn : s.rest.length using Nat.strongRecOn generalizing s r s' with
  | ind n ih =>
      subst hn
      have unrolled : ∀ u : Reading, u.token? = s.token? → blockParts full u =
          (if s.token?.any startsDeclaration then do
            let d ← declaration full
            discard (accept (.symbol .semicolon))
            let r ← blockParts full
            return (d :: r.1, r.2)
          else do return ([], ← anyExpr full)) u := by
        intro u head
        rw [blockParts_run Nested.nests_full_self, head]
      refine SpelledIf.of_head ?_ fun {u} head _ => unrolled u head
      rw [blockParts_run hg.inStep] at run
      split at run
      · next declares =>
          rw [if_pos declares]
          obtain ⟨d, s₁, first, rest⟩ := bind_ok.1 run
          rw [discard_semicolon] at rest
          obtain ⟨r, s₂, parts, done⟩ := bind_ok.1 rest
          obtain ⟨rfl, rfl⟩ := pure_ok.1 done
          have length :=
            (Simulation.InStep.onward (P := Anywhere) (declaration_inStep hg.inStep) trivial first).length
          have decl : Spelled m .phrase [] d.layout.tokens s d s₁ (declaration full) :=
            declaration_spells (P := Anywhere) hg s d s₁ trivial first
          have skips : ∀ {d u}, u.token? = some (.symbol .semicolon) →
              (discard (accept (.symbol .semicolon)) >>= fun _ =>
                blockParts full >>= fun r => pure (d :: r.1, r.2)) u =
              (blockParts full >>= fun r => pure (d :: r.1, r.2)) u.advance := by
            intro d u hu
            rw [discard_semicolon, if_pos hu]
          rw [blockPartsTokens_cons]
          split at parts
          · next hs₁ =>
              have shorter := Reading.length_advance hs₁
              have inner := ih _ (by omega) s₁.advance r s₂ parts rfl
              exact decl.declared hs₁ skips fun d' same => inner.shift.bind fun r' sames =>
                SpelledIf.pure (Same.prod_iff.2 ⟨same.cons (Same.prod_iff.1 sames).1,
                  (Same.prod_iff.1 sames).2⟩)
          · next hs₁ =>
              have inner := ih _ (by omega) s₁ r s₂ parts rfl
              refine decl.declared_end declares (fun _ t ht => ?_) skips (fun {a u} hu => ?_)
                (fun d' same => inner.shift.bind fun r' sames => SpelledIf.pure (Same.prod_iff.2
                  ⟨same.cons (Same.prod_iff.1 sames).1, (Same.prod_iff.1 sames).2⟩))
                fun {cs} clean rest => ?_
              · have head := blockParts_head hg parts
                rw [Option.mem_def.1 ht] at head
                constructor <;> rintro rfl <;> rcases head with h | h <;> cases h
              · rw [discard_semicolon, if_neg (by rwa [hu])]
              · obtain ⟨cs', rest', -, told⟩ := inner
                obtain ⟨_, -, -, hold, -⟩ := told clean
                rw [List.append_cancel_right (rest.symm.trans rest')]
                exact hold.self.2.2
      · next declares =>
          rw [if_neg declares]
          have body : Spells m Anywhere .phrase [] (do return (([] : List Decl), ← anyExpr g))
              (do return ([], ← anyExpr full)) blockPartsTokens :=
            (anyExpr_spells hg).bind fun e e' same => SpellsIf.pure (Same.prod_iff.2 ⟨rfl, same⟩) rfl
          exact body s r s' trivial run

end Blocks

end Grammar

end Mim
