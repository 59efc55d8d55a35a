import Mim.Proofs.Spells.Layout

/-! # Names are read as they are written -/

namespace Mim

open Simulation (Anywhere)
open Grammar Token Mode Layout

variable {m : Mode} {P : Option Token → Prop} {l₀ : List Token}

namespace Grammar

theorem identifier_length {s s' : Reading} {i : Ident} (run : identifier s = .ok i s') :
    s'.rest.length < s.rest.length :=
  (identifier_inStep (P := Anywhere) (m := s.rest.length + 1).onward trivial run).length

theorem identifier_spells :
    Spells m P .phrase [] identifier identifier fun i => i.layout.tokens := by
  refine SpellsIf.peek fun t _ => ?_
  split
  · next name _ =>
      refine SpellsIf.span fun place place' same => SpellsIf.advance rfl ?_
      exact SpellsIf.pure (same.map (f := Ident.mk name) fun _ => rfl) rfl
  · exact SpellsIf.unexpected _

theorem identifier?_run (s : Reading) : identifier? s =
    (if s.token?.any isGroupAhead.isIdent then some <$> identifier else pure none) s := by
  unfold identifier?
  rw [peek_bind]
  cases s.token? with
  | none => rfl
  | some t => cases t <;> rfl

theorem identifier?_advances : Advances identifier? :=
  optional_advances identifier?_run identifier_length

theorem identifier?_spells :
    Spells m P .piece [] identifier? identifier? fun r => r.elim [] fun i => i.layout.tokens := by
  refine SpellsIf.optional (fun t ht => ?_) identifier?_run identifier?_run identifier_spells
  cases t with
  | ident name => rcases ht with ht | ht <;> cases ht
  | _ => rfl

theorem subtag_spells : Spells m P .phrase [] subtag subtag fun t => t.layout.tokens := by
  have aliases : Spells m Anywhere .piece [] (many (after (.symbol .assign) identifier))
      (many (after (.symbol .assign) identifier)) fun as =>
        as.flatMap fun a => .symbol .assign :: a.layout.tokens :=
    SpellsIf.many Looks.follow (after_advances fun run => Nat.le_of_lt (identifier_length run))
      (after_advances fun run => Nat.le_of_lt (identifier_length run))
      (SpellsIf.after (Grade.leads_plain rfl) rfl rfl identifier_spells)
  refine SpellsIf.node (fun p => Subtag.mk p.1.1 p.1.2 p.2) ?_
    (fun _ => rfl) (fun _ => rfl) (fun _ => rfl) (fun _ _ => rfl)
  refine identifier_spells.bind fun _ _ same => aliases.append fun _ _ sames => ?_
  exact SpellsIf.pure (Same.prod_iff.2 ⟨same, sames⟩) (Subtag.tokens_layout _)

theorem subtag_length ⦃s : Reading⦄ ⦃t : Subtag⦄ ⦃s' : Reading⦄ (run : subtag s = .ok t s') :
    s'.rest.length ≤ s.rest.length :=
  (subtag_inStep (P := Anywhere) (m := s.rest.length + 1).onward trivial run).rest.length_le

theorem subtagList_spells :
    Spells m P .phrase [] subtagList subtagList fun ts => .symbol .leftParen ::
      ([.symbol .comma].intercalate (ts.map fun t => t.layout.tokens) ++ [.symbol .rightParen]) :=
  SpellsIf.expect_with Grade.leads_paren <|
    (SpellsIf.listed rfl subtag_length subtag_length (subtag_spells.follow FollowElement.follow)).shift
      fun _ => rfl

/-- A subtag list that begins with what may stand in one is not empty. -/
theorem subtagList_ne_nil {s s' : Reading} {ts : List Subtag} (run : subtagList s = .ok ts s')
    (ahead : (look s.tokens).2) : ts ≠ [] := by
  obtain ⟨_, s₁, first, rest⟩ := bind_ok.1 run
  obtain ⟨hs, rfl⟩ := expect_ok.1 first
  obtain ⟨ts₁, s₂, list, last⟩ := bind_ok.1 rest
  obtain ⟨_, s₃, close, done⟩ := bind_ok.1 last
  obtain ⟨rfl, rfl⟩ := pure_ok.1 done
  obtain ⟨i, is, hi, hp⟩ := Reading.token?_eq_some.1 hs
  cases (commaList_ok subtag_length).1 list with
  | stop hc =>
      have inside : is.head?.map Item.token = some (.symbol .rightParen) := by
        simpa [Reading.token?, Reading.advance, hi] using hc
      have tokens : s.tokens = .symbol .leftParen :: is.map Item.token := by
        simp [Reading.tokens, hi, hp]
      rw [tokens] at ahead
      simp [look, inside, isSubtagToken] at ahead
  | last | more => simp

theorem annex_spells : Spells m P .phrase [] annex annex fun a => a.layout.tokens := by
  refine SpellsIf.node (fun p => Annex.mk p.1.1 p.1.2 p.2) ?_
    (fun _ => rfl) (fun _ => rfl) (fun _ => rfl) (fun _ _ => rfl)
  have subtags : ∀ (path : AnnexPath) (s : Reading),
      (do
        if !subtagListAhead (← get).rest then return (path, [])
        else if path.subtag.isSome then
          invalid "annex cannot have both a dotted subtag and a subtag list" (← span)
        else return (path, ← subtagList) : Parser (AnnexPath × List Subtag)) s =
      (if opensSubtags (look s.tokens) then
        (if path.subtag.isSome then do
          invalid "annex cannot have both a dotted subtag and a subtag list" (← span)
        else do return (path, ← subtagList))
        else pure (path, [])) s := by
    intro path s
    rw [get_bind, subtagListAhead_eq, isSubtagListAhead_eq]
    cases opensSubtags (look s.tokens) <;> rfl
  refine SpellsIf.peek fun t _ => ?_
  split
  · next path _ =>
      refine SpellsIf.advance rfl ?_
      refine SpellsIf.choose (c := opensSubtags)
        (fun follow => follow.stops (c := opensSubtags) rfl fun t _ => Bool.and_false _)
        (subtags path) (subtags path) (fun s r s' _ ahead run => ?_)
        (SpellsIf.pure (a := (path, [])) rfl rfl)
      split at run
      · cases run
      · next noSubtag =>
          obtain ⟨ts, s₁, list, done⟩ := bind_ok.1 run
          obtain ⟨rfl, rfl⟩ := pure_ok.1 done
          have ne := subtagList_ne_nil list (Bool.and_eq_true_iff.1 ahead).2
          rw [Annex.tokens_layout, if_neg (by simpa using ne), if_neg noSubtag]
          exact (subtagList_spells (P := Anywhere) s ts s₁ trivial list).shift.bind
            fun ts' same => SpelledIf.pure (Same.prod_iff.2 ⟨rfl, same⟩)
  · refine SpellsIf.fails fun _ _ _ _ run => ?_
    cases run
  · exact SpellsIf.unexpected _

theorem name_spells : Spells m P .phrase [] name name fun n => n.layout.tokens := by
  refine SpellsIf.ask (c := fun t => t.any isAnnex) annexAhead_run fun
    | true => annex_spells.bind fun _ _ same => ?_
    | false => SpellsIf.peek fun t _ => ?_
  · exact SpellsIf.pure (same.map (f := Name.annex) fun _ => rfl) rfl
  · split
    · refine identifier_spells.bind fun _ _ same => ?_
      exact SpellsIf.pure (same.map (f := Name.ident) fun _ => rfl) rfl
    · exact SpellsIf.unexpected _

end Grammar

end Mim
