import Mim.Proofs.Forward
import Mim.Proofs.Nesting
import Mim.Proofs.Spells.Semicolons
import Mim.Proofs.WellFormed

/-! # The grammar reads well-formed trees

Each expression and each declaration in a tree was read by a rule of its own, so it is enough
to know what each rule gives. Of what is nested, a rule only needs to know which binders it
gets, and that the body of a block is no block itself, as the declarations in front of it have
been read to the last.
-/

namespace Mim

open Grammar
open Simulation (Anywhere InStep)

variable {α β : Type}

namespace Grammar

/-- Where no name that is left is reserved and `P` holds of what is left, a step that succeeds
    leaves no reserved name either, and gives what `Q` tells. -/
def Gives (P : List Item → Prop) (Q : α → Prop) (p : Parser α) : Prop :=
  ∀ ⦃s a s'⦄, Item.AreNamed s.rest → P s.rest → p s = .ok a s' → Item.AreNamed s'.rest ∧ Q a

namespace Gives

variable {P P' : List Item → Prop} {Q Q' : α → Prop} {R : α → Prop} {T : β → Prop}

theorem weaken {p : Parser α} (h : Gives P' Q' p) (hP : ∀ is, P is → P' is)
    (hQ : ∀ a, Q' a → Q a) : Gives P Q p := by
  intro s a s' named hs run
  have ⟨named', ha⟩ := h named (hP _ hs) run
  exact ⟨named', hQ a ha⟩

theorem pure {a : α} (h : Q a) : Gives P Q (Pure.pure a) := by
  intro s b s' named _ run
  obtain ⟨rfl, rfl⟩ := pure_ok.1 run
  exact ⟨named, h⟩

theorem unexpected {expected : String} : Gives P Q (Grammar.unexpected expected) := by
  intro s a s' _ _ run
  cases run

theorem invalid {message : String} {place : Span} : Gives P Q (Grammar.invalid message place) := by
  intro s a s' _ _ run
  cases run

theorem bind {p : Parser α} {f : α → Parser β} (hp : Gives P R p)
    (hf : ∀ a, R a → Gives (fun _ => True) T (f a)) : Gives P T (p >>= f) := by
  intro s b s' named hs run
  obtain ⟨a, s₁, first, rest⟩ := bind_ok.1 run
  have ⟨named₁, ha⟩ := hp named hs first
  exact hf a ha named₁ trivial rest

theorem given {a : α} {f : α → Parser β} (hf : Gives P T (f a)) :
    Gives P T (Pure.pure a >>= f) := by rwa [pure_bind]

/-- What is told of what is left may rule something out, whatever is read. -/
theorem known {c : Prop} {p : Parser α} (hc : ∀ is, Item.AreNamed is → P is → c)
    (h : c → Gives P Q p) : Gives P Q p := by
  intro s a s' named hs run
  exact h (hc _ named hs) named hs run

/-- A name that comes next is not reserved. -/
theorem named {name : String} {p : Parser α}
    (next : ∀ is, P is → is.head?.map Item.token = some (.ident name))
    (h : name ∉ Token.reserved → Gives P Q p) : Gives P Q p := by
  refine known (fun is named hs => ?_) h
  obtain ⟨i, hi, token⟩ := Option.map_eq_some_iff.1 (next is hs)
  exact named i (List.mem_of_head? hi) name token

/-- A step that looks at what is left. -/
theorem see {p : Parser α} {f : α → Parser β} {v : List Item → α}
    (hp : ∀ s : Reading, p s = .ok (v s.rest) s)
    (hf : ∀ a, Gives (fun is => P is ∧ v is = a) T (f a)) : Gives P T (p >>= f) := by
  intro s b s' named hs run
  rw [bind_of_ok (hp s)] at run
  exact hf _ named ⟨hs, rfl⟩ run

theorem peek {f : Option Token → Parser β}
    (h : ∀ t, Gives (fun is => P is ∧ is.head?.map Item.token = t) T (f t)) :
    Gives P T (Grammar.peek >>= f) := see (fun _ => rfl) h

/-- A step that leaves everything, whatever it sees. -/
theorem skip {p : Parser α} [quiet : Quiet p] {f : α → Parser β} (hf : ∀ a, Gives P T (f a)) :
    Gives P T (p >>= f) := by
  intro s b s' named hs run
  obtain ⟨a, s₁, first, after, -⟩ := quiet.run s
  have rest : s.rest = s₁.rest := after.rest
  rw [bind_of_ok first] at run
  rw [rest] at named hs
  exact hf a named hs run

theorem ite {c : Prop} [Decidable c] {p q : Parser α} (hp : c → Gives P Q p)
    (hq : ¬ c → Gives P Q q) : Gives P Q (if c then p else q) := by
  split
  · next h => exact hp h
  · next h => exact hq h

/-- The last step, and what is made of it. -/
theorem last {p : Parser α} {f : α → β} (hp : Gives P R p) (h : ∀ a, R a → T (f a)) :
    Gives P T (p >>= fun a => Pure.pure (f a)) := hp.bind fun a ha => pure (h a ha)

theorem map {p : Parser α} {f : α → β} (hp : Gives P R p) (h : ∀ a, R a → T (f a)) :
    Gives P T (f <$> p) := by
  rw [map_eq_bind]
  exact hp.last h

theorem located {p : Parser α} (hp : Gives P Q p) : Gives P (fun r => Q r.1) (Grammar.located p) :=
  skip fun _ => hp.bind fun _ ha => skip fun _ => pure ha

theorem advance : Gives P (fun _ => True) Grammar.advance := by
  intro s a s' named _ run
  cases run
  cases hr : s.rest with
  | nil => exact ⟨by simp [Reading.advance_end hr, named], trivial⟩
  | cons i rest =>
      rw [Reading.advance_eq hr]
      exact ⟨fun j hj => named j (hr ▸ List.mem_cons_of_mem _ hj), trivial⟩

theorem accept {t : Token} : Gives P (fun _ => True) (Grammar.accept t) :=
  skip fun _ => ite (fun _ => advance.bind fun _ _ => pure trivial) fun _ => pure trivial

theorem expect {t : Token} : Gives P (fun _ => True) (Grammar.expect t) :=
  accept.bind fun _ _ => ite (fun _ => pure trivial) fun _ => unexpected

theorem after {marker : Token} {p : Parser α} (hp : Gives (fun _ => True) Q p) :
    Gives P (fun r => ∀ a ∈ r, Q a) (Grammar.after marker p) :=
  accept.bind fun _ _ => ite (fun _ => hp.map (by simp)) fun _ => pure (by simp)

theorem many {step : Parser (Option α)} (h : Gives (fun _ => True) (fun r => ∀ a ∈ r, Q a) step) :
    Gives P (fun as => ∀ a ∈ as, Q a) (Grammar.many step) := by
  suffices upTo : ∀ n, Gives (fun _ => True) (fun as => ∀ a ∈ as, Q a) (manyUpTo step n) from
    skip fun s => (upTo _).weaken (fun _ _ => trivial) fun _ h => h
  intro n
  induction n with
  | zero => exact pure (by simp)
  | succ n ih =>
      refine h.bind fun r hr => ?_
      cases r with
      | none => exact pure (by simp)
      | some a => exact ih.last fun as has => List.forall_mem_cons.2 ⟨hr a rfl, has⟩

theorem many1 {first : Parser α} {step : Parser (Option α)} (hf : Gives P Q first)
    (h : Gives (fun _ => True) (fun r => ∀ a ∈ r, Q a) step) :
    Gives P (fun as => as ≠ [] ∧ ∀ a ∈ as, Q a) (Grammar.many1 first step) :=
  hf.bind fun a ha => h.many.last fun as has => ⟨by simp, List.forall_mem_cons.2 ⟨ha, has⟩⟩

theorem commaList {close : Token} {element : Parser α} (h : Gives (fun _ => True) Q element) :
    Gives P (fun as => ∀ a ∈ as, Q a) (Grammar.commaList close element) := by
  suffices upTo : ∀ n, Gives (fun _ => True) (fun as => ∀ a ∈ as, Q a)
      (commaListUpTo close element n) from
    skip fun s => (upTo _).weaken (fun _ _ => trivial) fun _ h => h
  intro n
  induction n with
  | zero => exact pure (by simp)
  | succ n ih =>
      refine skip fun _ => ite (fun _ => pure (by simp)) fun _ => h.bind fun a ha => ?_
      refine accept.bind fun _ _ => ite (fun _ => ?_) fun _ => pure (by simpa using ha)
      exact ih.last fun as has => List.forall_mem_cons.2 ⟨ha, has⟩

theorem of_inStep [Spanned α] {k : Nat} {p : Parser α}
    (h : ∀ {σ : Simulation} {m : Nat}, σ.InStep Anywhere k (m + 1) p p) :
    Gives P (fun _ => True) p := by
  intro s a s' named _ run
  have rest := ((Forward.of_inStep h).ok run).1.rest
  exact ⟨fun i hi => named i (rest.subset hi), trivial⟩

end Gives

end Grammar

/-- Whether what is left starts with a declaration. -/
def Item.startDeclaration (items : List Item) : Bool :=
  (items.head?.map Item.token).any Token.startsDeclaration

/-- What is nested is a binder of the family asked for, and an expression that is a block only
    where a declaration comes first. -/
structure Nested.WellFormed (g : Nested) : Prop where
  inStep {σ : Simulation} {m : Nat} : σ.Nests m g g
  tuple {P : List Item → Prop} (bracket : Bracket) :
    Gives P (fun b => b.IsOf bracket ∧ b.isTuple) (g.tuple bracket)
  body (least : Prec) : Gives (Item.startDeclaration · = false) (fun e => e.form.isBlock = false)
    (g.expr least)

namespace Grammar

variable {g : Nested} {P : List Item → Prop}

section Names

theorem identifier_gives : Gives P Ident.WellFormed identifier := by
  refine .peek fun t => ?_
  split
  · refine .named (fun _ hs => hs.2) fun free => .skip fun _ => ?_
    exact Gives.advance.last fun _ _ => free
  · exact .unexpected

theorem identifier?_gives : Gives P (fun r => ∀ i ∈ r, i.WellFormed) identifier? := by
  refine .peek fun t => ?_
  split
  · exact identifier_gives.map (by simp)
  · exact .pure (by simp)

theorem subtag_gives : Gives P Subtag.WellFormed subtag := by
  have aliases : Gives (fun _ => True) (fun r : Option Ident => ∀ i ∈ r, i.WellFormed)
      (after (.symbol .assign) identifier) := identifier_gives.after
  refine Gives.last (Gives.located (Q := fun p => p.1.WellFormed ∧ ∀ i ∈ p.2, i.WellFormed) ?_)
    fun r hr => ⟨hr.1, hr.2⟩
  exact identifier_gives.bind fun tag ht => aliases.many.last fun as has => ⟨ht, has⟩

theorem subtagList_gives : Gives P (fun ts => ∀ t ∈ ts, t.WellFormed) subtagList :=
  Gives.expect.bind fun _ _ => subtag_gives.commaList.bind fun _ h =>
    Gives.expect.bind fun _ _ => .pure h

theorem annex_gives : Gives P Annex.WellFormed annex := by
  refine Gives.last (Gives.located (Q := fun p => (p.1.subtag.isSome → p.2 = []) ∧
    ∀ t ∈ p.2, t.WellFormed) ?_) fun r hr => ⟨hr.1, hr.2⟩
  refine .peek fun t => ?_
  split
  · refine Gives.advance.bind fun _ _ => .skip fun s => .ite (fun _ => ?_) fun _ => ?_
    · exact .pure ⟨fun _ => rfl, by simp⟩
    · refine .ite (fun _ => .skip fun _ => .invalid) fun plain => ?_
      exact subtagList_gives.last fun ts hts => ⟨fun dotted => absurd dotted plain, hts⟩
  · exact .skip fun _ => .invalid
  · exact .unexpected

theorem name_gives : Gives P Name.WellFormed name := by
  refine .skip fun _ => .ite (fun _ => annex_gives.last fun _ h => h) fun _ => .peek fun t => ?_
  split
  · exact identifier_gives.last fun _ h => h
  · exact .unexpected

end Names

section Binders

theorem rest_of_identifier {s s' : Reading} {i : Ident} (run : identifier s = .ok i s') :
    ∃ item, s.rest = item :: s'.rest ∧ isGroupAhead.isIdent item.token := by
  unfold identifier at run
  rw [peek_bind] at run
  cases next : s.token? with
  | none =>
      rw [next] at run
      cases run
  | some t =>
      obtain ⟨item, rest, hr, same⟩ := Reading.token?_eq_some.1 next
      rw [next] at run
      cases t with
      | ident name =>
          cases run
          exact ⟨item, by rw [Reading.advance_eq hr]; exact hr, by rw [same]; rfl⟩
      | _ => cases run

/-- All the names in front of anything else are read. -/
theorem repeats_identifier? {s s' : Reading} {names : List Ident}
    (repeats : Repeats identifier? s names s') :
    ((s.rest.map Item.token).takeWhile isGroupAhead.isIdent).length = names.length := by
  induction repeats with
  | @stop s s' run =>
      rw [identifier?_run] at run
      split at run
      · rw [map_eq_bind] at run
        obtain ⟨i, s₁, -, done⟩ := bind_ok.1 run
        cases (pure_ok.1 done).1
      · next no =>
          cases hr : s.rest with
          | nil => simp
          | cons i rest =>
              have other : isGroupAhead.isIdent i.token = false := by
                simpa [Reading.token?, hr] using no
              simp [other]
  | @more s s₁ s' i names run _ ih =>
      rw [identifier?_run] at run
      split at run
      · rw [map_eq_bind] at run
        obtain ⟨j, s₂, first, done⟩ := bind_ok.1 run
        obtain ⟨-, rfl⟩ := pure_ok.1 done
        obtain ⟨item, hr, ident⟩ := rest_of_identifier first
        simp [hr, ident, ih]
      · cases (pure_ok.1 run).1

variable (hg : g.WellFormed)
include hg

/-- Nothing is to be known of an expression. -/
theorem expr_gives (least : Prec) : Gives P (fun _ => True) (g.expr least) :=
  .of_inStep (hg.inStep.expr least)

theorem typed_gives {family : Bracket} (hf : family ≠ .curly) :
    Gives P (fun b => b.IsOf family) (typed g) := by
  refine Gives.last (Gives.located (Q := fun p => p.1.WellFormed) ?_) fun r hr =>
    Binder.isOf_typed hf hr _ _
  exact identifier_gives.bind fun i hi => Gives.expect.bind fun _ _ =>
    (expr_gives hg .bottom).last fun _ _ => hi

/-- A group is only read where two names at least are in front of a colon. -/
theorem group_gives :
    Gives (fun is => isGroupAhead (is.map Item.token)) Binder.IsGroup (group g) := by
  refine Gives.last (Gives.located (Q := fun p : List Ident × Expr => 2 ≤ p.1.length ∧
    ∀ i ∈ p.1, i.WellFormed) ?_) fun r hr => hr
  have names : Gives (fun is => isGroupAhead (is.map Item.token))
      (fun names => 2 ≤ names.length ∧ ∀ i ∈ names, i.WellFormed) (many identifier?) := by
    intro s names s' named ahead run
    have ⟨named', free⟩ := Gives.many (P := fun _ => True) identifier?_gives named trivial run
    have count := repeats_identifier? ((many_ok identifier?_advances).1 run)
    have two : 2 ≤ ((s.rest.map Item.token).takeWhile isGroupAhead.isIdent).length :=
      of_decide_eq_true (Bool.and_eq_true_iff.1 ahead).1
    exact ⟨named', count ▸ two, free⟩
  exact names.bind fun ns hns => Gives.expect.bind fun _ _ =>
    (expr_gives hg .bottom).last fun _ _ => hns

theorem pattern_gives : Gives P (fun b => b.IsOf .round) (pattern g) := by
  refine .peek fun t => ?_
  split
  · exact (hg.tuple .round).weaken (fun _ h => h) fun _ h => h.1
  · refine .skip fun _ => .ite (fun _ => typed_gives hg (by decide)) fun _ => ?_
    exact identifier_gives.last fun _ h => Binder.isOf_name h
  · exact .unexpected

theorem battern_gives (least : Prec) : Gives P (fun b => b.IsOf .square) (battern g least) := by
  have type_ {P : List Item → Prop} : Gives P (fun b => b.IsOf .square)
      (do return Binder.type (← g.expr least)) :=
    (expr_gives hg least).last fun ty _ => Binder.isOf_type ty
  refine .peek fun t => ?_
  split
  · exact (hg.tuple .square).weaken (fun _ h => h) fun _ h => h.1
  · exact .skip fun _ => .ite (fun _ => typed_gives hg (by decide)) fun _ => type_
  · exact type_

theorem element_gives (bracket : Bracket) :
    Gives P (fun b => b.IsGroup ∨ b.IsOf bracket.inner) (element g bracket) := by
  refine .see (v := fun is => isGroupAhead (is.map Item.token)) (fun _ => groupAhead_run)
    fun ahead => ?_
  cases ahead with
  | true =>
      have read : Gives (fun is => P is ∧ isGroupAhead (is.map Item.token) = true)
          (fun b => b.IsGroup ∨ b.IsOf bracket.inner) (group g) :=
        (group_gives hg).weaken (fun _ h => h.2) fun _ h => .inl h
      rw [if_pos rfl]
      exact .ite (fun _ => read) fun _ => .skip fun _ => .skip fun _ => read
  | false =>
      cases bracket with
      | round => exact (pattern_gives hg).weaken (fun _ h => h) fun _ h => .inr h
      | square | curly => exact (battern_gives hg .bottom).weaken (fun _ h => h) fun _ h => .inr h

theorem tuple_gives (bracket : Bracket) :
    Gives P (fun b => b.IsOf bracket ∧ b.isTuple) (tuple g bracket) := by
  refine Gives.last (Gives.located (Q := fun bs => ∀ b ∈ bs, b.IsGroup ∨ b.IsOf bracket.inner) ?_)
    fun r hr => ⟨Binder.isOf_tuple hr _, rfl⟩
  exact Gives.advance.bind fun _ _ => (element_gives hg bracket).commaList.bind fun _ h =>
    Gives.expect.bind fun _ _ => .pure h

theorem binder_gives (annotated : Bool) : Gives P Binder.IsBound (binder g annotated) := by
  have pattern {P : List Item → Prop} : Gives P Binder.IsBound (pattern g) :=
    (pattern_gives hg).weaken (fun _ h => h) fun _ h => .inl h
  have name {P : List Item → Prop} : Gives P Binder.IsBound (do return Binder.name (← identifier)) :=
    identifier_gives.last fun _ h => .inl (Binder.isOf_name h)
  refine .peek fun t => ?_
  split
  · exact pattern
  · exact (battern_gives hg .pi).weaken (fun _ h => h) fun _ h => .inr h
  · refine .skip fun _ => .skip fun _ => .ite (fun _ => pattern) fun _ => .skip fun _ => ?_
    exact .ite (fun _ => .skip fun _ => name) fun _ => name
  · exact .ite (fun _ => (expr_gives hg .pi).last fun ty _ => .inr (Binder.isOf_type ty))
      fun _ => .unexpected
  · exact .unexpected

theorem domain_gives : Gives P Binder.IsDomain (domain g) := by
  have name {P : List Item → Prop} : Gives P Binder.IsDomain (do return Binder.name (← identifier)) :=
    identifier_gives.last fun _ h => ⟨.round, Binder.isOf_name h⟩
  refine .peek fun t => ?_
  split
  · exact (pattern_gives hg).weaken (fun _ h => h) fun _ h => ⟨.round, h⟩
  · exact (battern_gives hg .pi).weaken (fun _ h => h) fun _ h => ⟨.square, h⟩
  · exact (hg.tuple .curly).weaken (fun _ h => h) fun _ h => ⟨.curly, h.1⟩
  · exact .skip fun _ => .ite (fun _ => .skip fun _ => .skip fun _ => name) fun _ => name
  · exact .ite (fun _ => (expr_gives hg .union).last fun ty _ => ⟨.square, Binder.isOf_type ty⟩)
      fun _ => .unexpected
  · exact .unexpected

theorem domain?_gives : Gives P (fun r => ∀ b ∈ r, b.IsDomain) (domain? g) := by
  refine .peek fun t => ?_
  split
  · exact .ite (fun _ => (domain_gives hg).map (by simp)) fun _ => .pure (by simp)
  · exact .pure (by simp)

theorem piDomain_gives : Gives P Binder.IsTypeDomain (piDomain g) := by
  refine .skip fun _ => .ite (fun _ => ?_) fun _ => ?_
  · exact (hg.tuple .curly).weaken (fun _ h => h) fun _ h => .inr h.1
  · exact (battern_gives hg .pi).weaken (fun _ h => h) fun _ h => .inl h

end Binders

section Declarations

theorem curry_gives : Gives P (fun _ => True) curry := by
  refine .peek fun t => ?_
  split
  · refine .skip fun _ => Gives.advance.bind fun _ _ => ?_
    exact .ite (fun _ => .pure trivial) fun _ => .invalid
  · exact .unexpected

theorem curryAndTrip_gives : Gives P (fun r => ∀ i ∈ r.2, i.WellFormed) curryAndTrip :=
  curry_gives.bind fun _ _ => identifier_gives.after.last fun _ h => h

/-- The normalizer and the trip name of an axiom. -/
theorem axmOptions_gives : Gives P (fun r => (∀ i ∈ r.1, i.WellFormed) ∧
    ∀ i ∈ r.2.bind Prod.snd, i.WellFormed) axmOptions := by
  refine identifier?_gives.bind fun normalizer h => ?_
  cases normalizer with
  | none => exact curryAndTrip_gives.last fun _ h' => ⟨by simp, h'⟩
  | some normalizer =>
      refine curryAndTrip_gives.after.last fun options h' => ⟨h, fun i hi => ?_⟩
      obtain ⟨count, hc, trip⟩ := Option.bind_eq_some_iff.1 hi
      exact h' count hc i trip

variable (hg : g.WellFormed)
include hg

/-- Nothing is to be known of what follows a marker either. -/
theorem afterExpr_gives {marker : Token} (least : Prec) :
    Gives P (fun _ => True) (after marker (g.expr least)) :=
  (expr_gives hg least).after.weaken (fun _ h => h) fun _ _ => trivial

theorem axm_gives : Gives P DeclForm.WellFormed (axm g) := by
  refine Gives.expect.bind fun _ _ => annex_gives.bind fun name hn => Gives.expect.bind fun _ _ => ?_
  refine (expr_gives hg .bottom).bind fun ty _ => axmOptions_gives.after.bind fun options h => ?_
  cases options with
  | none => exact .pure ⟨hn, by simp, by simp⟩
  | some options => exact .pure ⟨hn, h options rfl⟩

theorem cfun_gives : Gives P DeclForm.WellFormed (cfun g) := by
  have codomain (domain : Binder) (h : domain.IsOf .square) : Gives (fun _ => True)
      DeclForm.WellFormed (do expect (.symbol .colon); return DeclForm.cfun domain (← anyExpr g)) :=
    Gives.expect.bind fun _ _ => (expr_gives hg .bottom).last fun _ _ => h
  have type_ {P : List Item → Prop} : Gives P DeclForm.WellFormed (g.expr .pi >>= fun e => do
      let domain ← pure (Binder.type e)
      expect (.symbol .colon)
      return DeclForm.cfun domain (← anyExpr g)) :=
    (expr_gives hg .pi).bind fun e _ => codomain (.type e) (Binder.isOf_type e)
  refine Gives.expect.bind fun _ _ => .skip fun _ => .ite (fun _ => ?_) fun _ => ?_
  · exact (battern_gives hg .pi).bind codomain
  · refine .skip fun _ => .skip fun _ => .ite (fun _ => ?_) fun _ => type_
    exact .skip fun _ => .skip fun _ => type_

theorem ccon_gives : Gives P DeclForm.WellFormed (ccon g) :=
  Gives.expect.bind fun _ _ => (battern_gives hg .pi).last fun _ h => h

theorem let_gives : Gives P DeclForm.WellFormed (let_ g) := by
  refine Gives.expect.bind fun _ _ => .skip fun _ => .ite (fun _ => ?_) fun _ => ?_
  · exact annex_gives.bind fun _ h => Gives.expect.bind fun _ _ =>
      (expr_gives hg .bottom).last fun _ _ => h
  · exact (binder_gives hg true).bind fun _ h => Gives.expect.bind fun _ _ =>
      (expr_gives hg .bottom).last fun _ _ => h

theorem param_gives : Gives P (fun p => p.domain.IsDomain) (param g) := by
  refine Gives.last (Gives.located (Q := fun p => p.1.IsDomain) ?_) fun r hr => hr
  refine (domain_gives hg).bind fun domain h => .skip fun _ => .ite (fun _ => ?_) fun _ => .pure h
  have filter : Gives (fun _ => True) (fun p => p.1.IsDomain)
      (do advance; return (domain, some (← g.expr .union))) :=
    Gives.advance.bind fun _ _ => (expr_gives hg .union).last fun _ _ => h
  split
  · exact .skip fun _ => .skip fun _ => filter
  · exact filter

theorem param?_gives : Gives P (fun r => ∀ p ∈ r, p.domain.IsDomain) (param? g) := by
  refine .peek fun t => ?_
  split
  · exact .ite (fun _ => (param_gives hg).map (by simp)) fun _ => .pure (by simp)
  · exact .pure (by simp)

theorem lam_gives : Gives P Lam.WellFormed (lam g) := by
  refine Gives.last (Gives.located (Q := fun p => p.2.2.1.WellFormed ∧
    ∀ q ∈ p.2.2.2.1, q.domain.IsDomain) ?_) fun r hr => ⟨hr.1, hr.2⟩
  refine .peek fun t => ?_
  split
  · exact .unexpected
  · refine Gives.advance.bind fun _ _ => Gives.accept.bind fun _ _ => ?_
    refine name_gives.bind fun name hn => (param?_gives hg).many.bind fun params hp => ?_
    refine (afterExpr_gives hg .bottom).bind fun codomain _ => ?_
    exact (afterExpr_gives hg .bottom).last fun _ _ => ⟨hn, hp⟩

theorem recBinding_gives : Gives P (fun b => b.name.WellFormed) (recBinding g) := by
  refine Gives.last (Gives.located (Q := fun p => p.1.WellFormed) ?_) fun r hr => hr
  refine name_gives.bind fun name hn => (afterExpr_gives hg .bottom).bind fun ty _ => ?_
  exact Gives.expect.bind fun _ _ => (expr_gives hg .bottom).last fun _ _ => hn

theorem nextRecBinding?_gives :
    Gives P (fun r => ∀ b ∈ r, b.name.WellFormed) (nextRecBinding? g) :=
  .skip fun _ => .ite (fun _ => .pure (by simp)) fun _ => (recBinding_gives hg).after

theorem rec_gives : Gives P DeclForm.WellFormed (rec_ g) := by
  refine Gives.expect.bind fun _ _ => ?_
  refine ((recBinding_gives hg).many1 (nextRecBinding?_gives hg)).bind fun bindings h => ?_
  exact (lam_gives hg).after.last fun _ h' => ⟨h.1, h.2, h'⟩

theorem rule_gives : Gives P DeclForm.WellFormed (rule g) := by
  have body (kind : RuleKind) : Gives (fun _ => True) DeclForm.WellFormed (do
      let binder ← binder g false
      expect (.symbol .colon)
      let lhs ← anyExpr g
      let guard ← after (.keyword .when_) (anyExpr g)
      expect (.symbol .fatArrow)
      return DeclForm.rule kind binder lhs guard (← anyExpr g)) := by
    refine (binder_gives hg false).bind fun _ h => Gives.expect.bind fun _ _ => ?_
    refine (expr_gives hg .bottom).bind fun _ _ => (afterExpr_gives hg .bottom).bind fun _ _ => ?_
    exact Gives.expect.bind fun _ _ => (expr_gives hg .bottom).last fun _ _ => h
  refine Gives.accept.bind fun _ _ => .ite (fun _ => .given (body _)) fun _ => ?_
  exact Gives.expect.bind fun _ _ => .given (body _)

theorem declForm_gives : Gives P DeclForm.WellFormed (declForm g) := by
  have lam {P : List Item → Prop} : Gives P DeclForm.WellFormed (DeclForm.lam <$> lam g) :=
    (lam_gives hg).map fun _ h => h
  refine .peek fun t => ?_
  split
  · exact axm_gives hg
  · exact cfun_gives hg
  · exact ccon_gives hg
  · exact let_gives hg
  · exact rec_gives hg
  · exact lam
  · exact lam
  · exact lam
  · exact rule_gives hg
  · exact rule_gives hg
  · exact .unexpected

end Declarations

section Operands

/-- What the rules for operands give, but for the one for blocks. -/
def IsSimple (form : Form) : Prop := form.WellFormed ∧ form.isBlock = false

theorem annexOperand_gives (path : AnnexPath) : Gives P IsSimple (annexOperand path) := by
  have annex {P : List Item → Prop} : Gives P IsSimple (pure (Form.annex path)) :=
    .pure ⟨trivial, rfl⟩
  refine Gives.advance.bind fun _ _ => .skip fun _ => .ite (fun _ => ?_) fun _ => annex
  exact .skip fun _ => .skip fun _ => annex

/-- The declarations of a block are read to the last. -/
theorem repeats_blockDeclaration? {s s' : Reading} {ds : List Decl}
    (repeats : Repeats (blockDeclaration? g) s ds s') : Item.startDeclaration s'.rest = false ∧
      (Item.startDeclaration s.rest → ds ≠ []) := by
  induction repeats with
  | @stop s s' run =>
      rw [blockDeclaration?_run] at run
      split at run
      · obtain ⟨d, s₁, -, rest⟩ := bind_ok.1 run
        rw [discard_semicolon] at rest
        cases (pure_ok.1 rest).1
      · next no =>
          obtain ⟨-, rfl⟩ := pure_ok.1 run
          have none : Item.startDeclaration s.rest = false := Bool.not_eq_true _ ▸ no
          exact ⟨none, by simp [none]⟩
  | more _ _ ih => exact ⟨ih.1, by simp⟩

variable (hg : g.WellFormed)
include hg

theorem literal_gives (least : Prec) (value : Literal) : Gives P IsSimple (literal g least value) := by
  refine .skip fun place => Gives.advance.bind fun _ _ => Gives.accept.bind fun _ _ => ?_
  have ty : Gives (fun _ => True) IsSimple (do return Form.ascribed value place (← anyExpr g)) :=
    (expr_gives hg .bottom).last fun _ _ => ⟨trivial, rfl⟩
  refine .ite (fun _ => .ite (fun _ => .skip fun _ => ty) fun _ => ty) fun _ => ?_
  exact .pure ⟨trivial, rfl⟩

theorem block_gives : Gives (fun is => Item.startDeclaration is = true)
    (fun form => form.WellFormed ∧ form.isBlock = true) (block g) := by
  intro s form s' named starts run
  obtain ⟨ds, s₁, loop, rest⟩ := bind_ok.1 run
  obtain ⟨body, s₂, last, done⟩ := bind_ok.1 rest
  obtain ⟨rfl, rfl⟩ := pure_ok.1 done
  have repeats := (many_ok (blockDeclaration?_advances hg.inStep)).1 loop
  have ⟨stop, filled⟩ := repeats_blockDeclaration? repeats
  have kept : Gives (fun _ => True) (fun _ => True) (many (blockDeclaration? g)) :=
    .of_inStep (InStep.many (blockDeclaration?_inStep hg.inStep))
  have ⟨named₂, simple⟩ := hg.body .bottom (kept named trivial loop).1 stop last
  exact ⟨named₂, ⟨filled starts, simple⟩, rfl⟩

theorem bracketed_gives : Gives P IsSimple (bracketed g) := by
  refine (tuple_gives hg .square).bind fun b hb => ?_
  refine (Gives.after (expr_gives hg .arrow)).bind fun codomain _ => ?_
  cases codomain with
  | some e => exact .pure ⟨⟨.inl hb.1, hb.2, rfl⟩, rfl⟩
  | none => exact name_gives.after.last fun label h => ⟨⟨hb.1, hb.2, h⟩, rfl⟩

theorem implicitPi_gives : Gives P IsSimple (implicitPi g) :=
  (tuple_gives hg .curly).bind fun _ hb => Gives.expect.bind fun _ _ =>
    (expr_gives hg .arrow).last fun _ _ => ⟨⟨.inr hb.1, hb.2, rfl⟩, rfl⟩

theorem cnType_gives : Gives P IsSimple (cnType g) :=
  Gives.expect.bind fun _ _ => (piDomain_gives hg).last fun _ h => ⟨⟨h, rfl⟩, rfl⟩

theorem fnType_gives : Gives P IsSimple (fnType g) :=
  Gives.expect.bind fun _ _ => (piDomain_gives hg).bind fun _ h =>
    (afterExpr_gives hg .arrow).last fun _ _ => ⟨h, rfl⟩

theorem lm_gives : Gives P IsSimple (lm g) := by
  refine Gives.expect.bind fun _ _ => ((domain_gives hg).many1 (domain?_gives hg)).bind fun ds h => ?_
  refine (afterExpr_gives hg .bottom).bind fun _ _ => Gives.expect.bind fun _ _ => ?_
  exact (expr_gives hg .bottom).last fun _ _ => ⟨h, rfl⟩

theorem pattern?_gives : Gives P (fun r => ∀ b ∈ r, b.IsOf .round) (pattern? g) := by
  have some_ {P : List Item → Prop} :
      Gives P (fun r : Option Binder => ∀ b ∈ r, b.IsOf .round) (some <$> pattern g) :=
    (pattern_gives hg).map (by simp)
  refine .peek fun t => ?_
  split
  · exact some_
  · exact some_
  · exact .pure (by simp)

theorem cn_gives : Gives P IsSimple (cn g) := by
  refine Gives.expect.bind fun _ _ => ?_
  refine ((pattern_gives hg).many1 (pattern?_gives hg)).bind fun ds h => ?_
  exact Gives.expect.bind fun _ _ => (expr_gives hg .bottom).last fun _ _ => ⟨⟨h.1, h.2, rfl⟩, rfl⟩

theorem insert_gives : Gives P IsSimple (insert g) := by
  refine Gives.expect.bind fun _ _ => Gives.expect.bind fun _ _ => ?_
  refine (expr_gives hg .bottom).bind fun _ _ => Gives.expect.bind fun _ _ => ?_
  refine (expr_gives hg .bottom).bind fun _ _ => Gives.expect.bind fun _ _ => ?_
  exact (expr_gives hg .bottom).bind fun _ _ => Gives.expect.bind fun _ _ => .pure ⟨trivial, rfl⟩

theorem ret_gives : Gives P IsSimple (ret g) := by
  refine Gives.expect.bind fun _ _ => (binder_gives hg true).bind fun _ h => ?_
  refine Gives.expect.bind fun _ _ => (expr_gives hg .bottom).bind fun _ _ => ?_
  refine Gives.expect.bind fun _ _ => (expr_gives hg .bottom).bind fun _ _ => ?_
  exact Gives.expect.bind fun _ _ => (expr_gives hg .bottom).last fun _ _ => ⟨h, rfl⟩

theorem uniq_gives : Gives P IsSimple (uniq g) :=
  Gives.expect.bind fun _ _ => (expr_gives hg .bottom).bind fun _ _ =>
    Gives.expect.bind fun _ _ => .pure ⟨trivial, rfl⟩

theorem array_gives : Gives P IsSimple (array g) := by
  refine Gives.expect.bind fun _ _ => (expr_gives hg .bottom).bind fun first _ => ?_
  refine (Gives.after (Gives.commaList (expr_gives hg .bottom))).bind fun others _ => ?_
  refine Gives.expect.bind fun _ _ => (expr_gives hg .bottom).bind fun _ _ => ?_
  exact Gives.expect.bind fun _ _ => .pure ⟨List.cons_ne_nil _ _, rfl⟩

theorem pack_gives : Gives P IsSimple (pack g) := by
  refine Gives.expect.bind fun _ _ => (expr_gives hg .bottom).bind fun _ _ => ?_
  refine Gives.expect.bind fun _ _ => (expr_gives hg .bottom).bind fun _ _ => ?_
  exact Gives.expect.bind fun _ _ => .pure ⟨trivial, rfl⟩

theorem parenthesized_gives : Gives P IsSimple (parenthesized g) :=
  Gives.expect.bind fun _ _ => (Gives.commaList (expr_gives hg .bottom)).bind fun _ _ =>
    Gives.expect.bind fun _ _ => .pure ⟨trivial, rfl⟩

theorem arm_gives : Gives P (fun a => a.binder.IsBound) (arm g) := by
  refine Gives.last (Gives.located (Q := fun p => p.1.IsBound) ?_) fun r hr => hr
  exact (binder_gives hg true).bind fun _ h => Gives.expect.bind fun _ _ =>
    (expr_gives hg .bottom).last fun _ _ => h

theorem firstArm?_gives : Gives P (fun r => ∀ a ∈ r, a.binder.IsBound) (firstArm? g) := by
  refine .peek fun t => ?_
  split
  · exact .ite (fun _ => (arm_gives hg).map (by simp)) fun _ => .pure (by simp)
  · exact .pure (by simp)

theorem match_gives : Gives P IsSimple (match_ g) := by
  refine Gives.expect.bind fun _ _ => (expr_gives hg .bottom).bind fun _ _ => ?_
  refine Gives.expect.bind fun _ _ => (firstArm?_gives hg).bind fun first h => ?_
  refine (arm_gives hg).after.many.last fun others h' => ⟨fun a ha => ?_, rfl⟩
  rcases List.mem_append.1 ha with ha | ha
  · exact h a (Option.mem_toList.1 ha)
  · exact h' a ha

/-- An operand is a block just if it starts with a declaration. -/
theorem operandForm_gives (least : Prec) (starts : Bool) :
    Gives (fun is => Item.startDeclaration is = starts)
      (fun form => form.WellFormed ∧ form.isBlock = starts) (operandForm g least) := by
  have simple {t : Option Token} {p : Parser Form} (ht : t.any Token.startsDeclaration = false)
      (h : Gives (·.head?.map Item.token = t) IsSimple p) :
      Gives (fun is => Item.startDeclaration is = starts ∧ is.head?.map Item.token = t)
        (fun form => form.WellFormed ∧ form.isBlock = starts) p := by
    refine .known (c := starts = false) (fun is _ hs => ?_) fun none => ?_
    · rw [← hs.1, Item.startDeclaration, hs.2, ht]
    · exact h.weaken (fun _ hs => hs.2) fun _ hf => none ▸ hf
  have closed {P : List Item → Prop} {form : Form} (h : IsSimple form) :
      Gives P IsSimple (do advance; return form) := Gives.advance.bind fun _ _ => .pure h
  refine .peek fun t => ?_
  split
  · exact simple rfl (closed ⟨trivial, rfl⟩)
  · exact simple rfl (.named (fun _ hs => hs) fun free => closed ⟨free, rfl⟩)
  · exact simple rfl (annexOperand_gives _)
  · exact simple rfl (literal_gives hg least _)
  · exact simple rfl (bracketed_gives hg)
  · exact simple rfl (implicitPi_gives hg)
  · exact simple rfl (cnType_gives hg)
  · exact simple rfl (fnType_gives hg)
  · exact simple rfl (lm_gives hg)
  · exact simple rfl (cn_gives hg)
  · exact simple rfl (insert_gives hg)
  · exact simple rfl (ret_gives hg)
  · exact simple rfl (uniq_gives hg)
  · exact simple rfl (array_gives hg)
  · exact simple rfl (pack_gives hg)
  · exact simple rfl (parenthesized_gives hg)
  · exact simple rfl (match_gives hg)
  · exact simple rfl (closed ⟨trivial, rfl⟩)
  · exact .skip fun _ => .invalid
  · refine .ite (fun yes => .known (c := starts = true) (fun is _ hs => ?_) fun some => ?_)
      fun _ => .unexpected
    · rw [← hs.1, Item.startDeclaration, hs.2]
      exact yes
    · subst some
      exact (block_gives hg).weaken (fun _ hs => hs.1) fun _ h => h
  · exact .unexpected

end Operands

section Expressions

/-- An operator makes an infix form of its own. -/
theorem infixForm_operator? (lhs : Expr) (op : Operator) :
    Ensures (infixForm g lhs op) fun form _ => form.operator? = some op := by
  cases op with
  | where_ => exact .skip fun _ => .skip fun _ => .pure fun _ => rfl
  | arrow => exact .skip fun _ => .skip fun _ => .pure fun _ => rfl
  | injection => exact .skip fun _ => .skip fun _ => .pure fun _ => rfl
  | application => exact .skip fun _ => .pure fun _ => rfl
  | explicitApplication => exact .skip fun _ => .skip fun _ => .pure fun _ => rfl
  | union => exact .skip fun _ => .pure fun _ => rfl
  | extraction => exact .skip fun _ => .skip fun _ => .pure fun _ => rfl

/-- What has been read so far of an expression is its first operand, or an infix form. -/
theorem reaches_operator? {least : Prec} {lhs e : Expr} {s s' : Reading}
    (reaches : Reaches (extend? g least) lhs s e s') :
    e = lhs ∨ ∃ op, e.form.operator? = some op := by
  cases reaches with
  | refl => exact .inl rfl
  | more _ step =>
      rcases extend?_ok.1 step with ⟨-, none, -⟩ | ⟨op, -, -, e', eq, run⟩
      · cases none
      · obtain rfl := Option.some.inj eq
        obtain ⟨form, s₂, inner, done⟩ := bind_ok.1 run
        rw [get_bind] at done
        obtain ⟨rfl, rfl⟩ := pure_ok.1 done
        exact .inr ⟨op, infixForm_operator? _ op _ _ _ inner⟩

variable (hg : g.WellFormed)
include hg

theorem operand_gives (least : Prec) (starts : Bool) :
    Gives (fun is => Item.startDeclaration is = starts)
      (fun e => e.form.WellFormed ∧ e.form.isBlock = starts) (operand g least) :=
  (operandForm_gives hg least starts).located.last fun _ h => h

/-- What has been read so far of an expression. -/
theorem reaches_wellFormed {least : Prec} {lhs e : Expr} {s s₁ s' : Reading}
    (named : Item.AreNamed s.rest) (first : operand g least s = .ok lhs s₁)
    (reaches : Reaches (extend? g least) lhs s₁ e s') :
    e.form.WellFormed ∧ (e.form.isBlock → Item.startDeclaration s.rest) := by
  rcases reaches_operator? reaches with rfl | ⟨op, h⟩
  · have ⟨whole, block⟩ := (operand_gives hg least _ named rfl first).2
    exact ⟨whole, fun h => block ▸ h⟩
  · have ⟨whole, simple⟩ := Form.wellFormed_of_operator? h
    exact ⟨whole, fun h => by rw [simple] at h; cases h⟩

theorem expr_body (least : Prec) : Gives (Item.startDeclaration · = false)
    (fun e => e.form.isBlock = false) (expr g least) := by
  intro s e s' named none run
  have kept : Gives (fun _ => True) (fun _ => True) (expr g least) :=
    .of_inStep (expr_inStep hg.inStep least)
  obtain ⟨lhs, s₁, first, rest⟩ := bind_ok.1 run
  have advances : ∀ a, Advances (extend? g least a) := fun _ _ _ _ run =>
    (extend?_onward hg.inStep run).length
  obtain ⟨s₂, reaches, -⟩ := reaches_of_grows .refl ((grow_ok advances).1 rest)
  obtain ⟨-, block⟩ := reaches_wellFormed hg named first reaches
  exact ⟨(kept named trivial run).1, by simpa [none] using block⟩

end Expressions

/-- What is nested to any depth is well-formed. -/
theorem wellFormed_upTo (n : Nat) : (Nested.upTo n).WellFormed := by
  induction n with
  | zero => exact ⟨nests_self, fun _ => .unexpected, fun _ => .unexpected⟩
  | succ n ih => exact ⟨nests_self, tuple_gives ih, expr_body ih⟩

section Dependencies

theorem dependency_gives : Gives P (fun d => d.name.WellFormed) dependency := by
  have body (kind : DependencyKind) : Gives (fun _ => True)
      (fun p : DependencyKind × Ident => p.2.WellFormed) (do
        let name ← identifier
        expect (.symbol .semicolon)
        return (kind, name)) :=
    identifier_gives.bind fun _ h => Gives.expect.bind fun _ _ => .pure h
  refine Gives.last (Gives.located (Q := fun p : DependencyKind × Ident => p.2.WellFormed) ?_)
    fun r hr => hr
  refine Gives.accept.bind fun _ _ => .ite (fun _ => .given (body _)) fun _ => ?_
  exact Gives.expect.bind fun _ _ => .given (body _)

theorem dependency?_gives :
    Gives P (fun r => ∀ part ∈ r, ∀ d ∈ part.toOption, d.name.WellFormed) dependency? := by
  intro s r s' named hs run
  rw [dependency?_run, startsDependency_look] at run
  split at run
  · next ahead =>
      rw [map_eq_bind] at run
      obtain ⟨part, s₁, first, done⟩ := bind_ok.1 run
      obtain ⟨rfl, rfl⟩ := pure_ok.1 done
      have rest := (recovering_dependency_onward ahead first).rest
      refine ⟨fun i hi => named i (rest.subset hi), ?_⟩
      cases read : dependency s with
      | ok d s₂ =>
          rw [recovering_ok read] at first
          cases first
          simpa [Except.toOption] using (dependency_gives named hs read).2
      | error e s₂ =>
          rw [recovering_error read] at first
          cases first
          simp [Except.toOption]
  · obtain ⟨rfl, rfl⟩ := pure_ok.1 run
    exact ⟨named, by simp⟩

theorem dependencies_gives : Gives P (fun ds => ∀ d ∈ ds, d.name.WellFormed) dependencies := by
  refine (Gives.many dependency?_gives).last fun parts h d hd => ?_
  obtain ⟨part, mem, eq⟩ := List.mem_filterMap.1 hd
  exact h part mem d eq

end Dependencies

end Grammar

theorem Item.AreNamed.after {s s' : Reading} {cs : List Item} (named : AreNamed s.rest)
    (after : s.After cs s') : AreNamed s'.rest := by
  intro i hi
  exact named i (after.rest ▸ List.mem_append_right _ hi)

theorem Expr.IsBetween.wellFormed {e : Expr} {n : Nat} {s s' : Reading} (h : e.IsBetween n s s')
    (named : Item.AreNamed s.rest) : e.WellFormed := by
  obtain ⟨least, lhs, s₁, first, reaches⟩ := h
  exact wellFormed_of_form (reaches_wellFormed (wellFormed_upTo n) named first reaches).1

theorem Decl.wellFormed_of_read {d : Decl} {n : Nat} {s s' : Reading}
    (run : declaration (Nested.upTo n) s = .ok d s') (named : Item.AreNamed s.rest) :
    d.WellFormed := by
  obtain ⟨form, inner, rfl⟩ := declaration_ok.1 run
  exact wellFormed_of_form (declForm_gives (P := fun _ => True) (wellFormed_upTo n) named trivial inner).2

theorem Node.IsReadFrom.wellFormed {s s' : Reading} {n : Node} {cs : List Item}
    (h : n.IsReadFrom s s' cs) (named : Item.AreNamed s.rest) : n.WellFormed where
  expr e he := by
    obtain ⟨s₁, s₂, _, _, first, -, -, k, between⟩ := h.expr e he
    exact between.wellFormed (named.after first)
  decl d hd := by
    cases whole : d.form.isWhole with
    | true =>
        obtain ⟨s₁, s₂, _, _, first, -, -, k, run⟩ := h.decl d hd whole
        exact Decl.wellFormed_of_read run (named.after first)
    | false =>
        apply Decl.wellFormed_of_form
        cases form : d.form <;> first | exact trivial | simp [form, DeclForm.isWhole] at whole

namespace Source

theorem dependencies_wellFormed (name text : String) :
    ∀ d ∈ (read name text).file.dependencies, d.name.WellFormed := by
  obtain ⟨f, s', run, -⟩ := file_read (g := (reading text).nested) nests_self (reading text)
  have same : (read name text).file = f := congrArg Prod.fst (Reading.file_eq run)
  obtain ⟨⟨⟨deps, ds⟩, place⟩, s₁, first, done⟩ := bind_ok.1 run
  obtain ⟨rfl, rfl⟩ := pure_ok.1 done
  obtain ⟨run, -⟩ := located_ok.1 first
  obtain ⟨deps', s₂, early, rest⟩ := bind_ok.1 run
  obtain ⟨ds', s₃, -, done⟩ := bind_ok.1 rest
  obtain ⟨eq, -⟩ := pure_ok.1 done
  obtain ⟨rfl, -⟩ := Prod.mk.inj eq
  rw [same]
  exact (dependencies_gives (P := fun _ => True) (Item.areNamed_lexemes text) trivial early).2

/-- The tree of any text is well-formed, with errors or without: each expression and each
    declaration in it is, at any depth, and each dependency has a name. -/
theorem tree_wellFormed (name text : String) :
    (∀ n ∈ (read name text).file.node.all, n.WellFormed) ∧
      ∀ d ∈ (read name text).file.dependencies, d.name.WellFormed := by
  refine ⟨fun n hn => ?_, dependencies_wellFormed name text⟩
  obtain ⟨covers, -, -⟩ := Reading.file_covers (Item.ofLexemes (lexemes text))
  rw [Node.all_eq] at hn
  rcases List.mem_cons.1 hn with rfl | hn
  · exact ⟨by simp [File.node, Node.expr?], by simp [File.node, Node.decl?]⟩
  · obtain ⟨cs, read⟩ := covers.isReadFrom n hn
    exact read.wellFormed (Item.areNamed_lexemes text)

end Source

end Mim
