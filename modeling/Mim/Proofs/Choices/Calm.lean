import Mathlib.Data.List.Chain
import Mim.Proofs.Choices

/-! # Layouts that no declaration interrupts

A declaration ends an application where it stands directly behind something that could go on.
In the layout of a tree that can only be where a declaration begins what is laid out without a
sign in front of it, and there it is one of the choices in the tree.
-/

namespace Mim

open Layout
open TieBreak (misplaced)

/-- The tokens that something which could go on may end with. -/
def Token.ends : Token → Bool
  | .primitive _ | .ident _ | .annex _ | .literal _ | .error _ => true
  | .keyword .end_ | .keyword .with_ => true
  | .symbol .rightParen | .symbol .rightBracket | .symbol .rightBrace | .symbol .rightUniq
  | .symbol .rightArray | .symbol .rightPack => true
  | _ => false

/-- A declaration may not stand directly behind what could go on. -/
def Token.Follows (t u : Token) : Prop := t.ends → u.startsDeclaration = false

/-- No declaration stands directly behind what could go on. -/
def Token.Calm (ts : List Token) : Prop := List.IsChain Token.Follows ts

/-- A token that neither goes on nor declares. -/
def Token.parts (t : Token) : Bool := !t.ends && !t.startsDeclaration && !t.isDoc

namespace Layout

def Calm (l : Layout) : Prop := Token.Calm (Token.undoc l.tokens)

/-- A layout that begins with a declaration. -/
def declares (l : Layout) : Bool := l.opening.any Token.startsDeclaration

variable {l l' : Layout} {t : Token}

theorem opening_append (l l' : Layout) : (l ++ l').opening = l.opening.or l'.opening := by
  rw [opening, tokens_append, Token.undoc_append, List.head?_append, opening, opening]

theorem declares_append (h : l.declares = false) (h' : l'.declares = false) :
    (l ++ l').declares = false := by
  unfold declares at h h' ⊢
  rw [opening_append]
  cases ho : l.opening with
  | none => rwa [Option.none_or]
  | some t => rwa [Option.some_or, ← ho]

theorem declares_token (ht : t.isDoc = false) (l : Layout) :
    declares (.token t :: l) = t.startsDeclaration := by
  rw [declares, opening, tokens_token, Token.undoc_cons ht]
  rfl

theorem declares_gap (l : Layout) : declares (.gap :: l) = l.declares := rfl

theorem declares_spaced (t : Token) (ht : t.isDoc = false) (plain : t.startsDeclaration = false)
    (l : Layout) : declares (spaced t ++ l) = false := by
  rw [← plain]
  exact declares_token ht _

namespace Calm

theorem nil : Calm [] := List.IsChain.nil

theorem append (h : Calm l) (h' : Calm l') (behind : l'.declares = false) : Calm (l ++ l') := by
  unfold Calm
  rw [tokens_append, Token.undoc_append]
  refine List.isChain_append.2 ⟨h, h', fun _ _ t ht _ => ?_⟩
  have opening : l'.opening = some t := ht
  simpa [declares, opening] using behind

/-- A token in front of a layout. -/
theorem cons (ht : t.isDoc = false) (going : t.ends → l.declares = false) (h : Calm l) :
    Calm (.token t :: l) := by
  unfold Calm
  rw [tokens_token, Token.undoc_cons ht]
  refine List.isChain_cons.2 ⟨fun u hu ends => ?_, h⟩
  have opening : l.opening = some u := hu
  simpa [declares, opening] using going ends

theorem lead (ht : t.parts) (h : Calm l) : Calm (.token t :: l) := by
  simp only [Token.parts, Bool.and_eq_true, Bool.not_eq_true'] at ht
  exact h.cons ht.2 fun ends => by simp [ht.1.1] at ends

theorem token (ht : t.isDoc = false) : Calm [.token t] := nil.cons ht fun _ => rfl

theorem mark (h : Calm l) (ht : t.parts) (h' : Calm l') : Calm (l ++ .token t :: l') := by
  apply h.append (h'.lead ht)
  simp only [Token.parts, Bool.and_eq_true, Bool.not_eq_true'] at ht
  rw [declares_token ht.2]
  exact ht.1.2

theorem snoc (h : Calm l) (ht : t.isDoc = false) (plain : t.startsDeclaration = false) :
    Calm (l ++ [.token t]) := by
  apply h.append (token ht)
  rwa [declares_token ht]

/-- Two layouts with a token between blanks. -/
theorem spaced (h : Calm l) (ht : t.parts) (h' : Calm l') : Calm (l ++ spaced t ++ l') := by
  have whole : Calm (l ++ .token t :: l') := h.mark ht h'
  simpa [Calm, Layout.spaced] using whole

theorem join {separator : Layout}
    (hs : ∀ {l l' : Layout}, Calm l → Calm l' → Calm (l ++ separator ++ l')) :
    ∀ {ls : List Layout}, (∀ l ∈ ls, Calm l) → Calm (join separator ls)
  | [], _ => nil
  | [l], h => h l List.mem_cons_self
  | l :: _ :: _, h =>
    hs (h l List.mem_cons_self) (join hs fun m hm => h m (List.mem_cons_of_mem _ hm))

theorem commas {ls : List Layout} (h : ∀ l ∈ ls, Calm l) : Calm (commas ls) := by
  refine join (fun {l l'} h h' => ?_) h
  have whole : Calm (l ++ .token (.symbol .comma) :: l') := h.mark rfl h'
  simpa [Calm] using whole

/-- A layout between brackets. -/
theorem bracketed (left right : Symbol) (hl : (Token.symbol left).parts) (h : Calm l) :
    Calm (.sign left :: l ++ [.sign right]) := (h.snoc rfl rfl).lead hl

end Calm

end Layout

namespace TieBreak

/-- No declaration is out of place. -/
def InPlace (rules : List TieBreak) : Prop := .declarationEndsApplication ∉ rules

@[simp] theorem inPlace_append (rules rules' : List TieBreak) :
    InPlace (rules ++ rules') ↔ InPlace rules ∧ InPlace rules' := by
  simp [InPlace]

@[simp] theorem inPlace_misplaced (l : Layout) : InPlace (misplaced l.opening) ↔ l.declares = false := by
  unfold InPlace misplaced declares
  cases l.opening.any Token.startsDeclaration <;> simp

end TieBreak

open TieBreak (InPlace inPlace_append inPlace_misplaced)
open Layout.Calm

section Names

theorem Ident.calm (i : Ident) : i.layout.Calm := token rfl

/-- Names that share a type. -/
theorem Ident.calm_each (is : List Ident) :
    Layout.Calm (Layout.join [.gap] (is.map Ident.layout)) := by
  have gap : tokens [.gap] = [] := rfl
  have names : tokens (Layout.join [.gap] (is.map Ident.layout)) = is.map fun i => .ident i.name := by
    rw [tokens_join, gap, Token.intercalate_nil, List.map_map, ← List.flatMap_def]
    exact List.map_eq_flatMap.symm
  unfold Layout.Calm
  rw [names]
  apply List.Pairwise.isChain
  apply List.pairwise_of_forall_mem_list
  intro t _ u hu _
  obtain ⟨i, -, rfl⟩ := List.mem_map.1 (List.mem_filter.1 hu).1
  rfl

theorem Subtag.calm (t : Subtag) : t.layout.Calm := by
  have aliases : ∀ (as : List Ident) {l : Layout}, l.Calm →
      Layout.Calm (l ++ as.flatMap fun a => Layout.spaced (.symbol .assign) ++ a.layout) := by
    intro as
    induction as with
    | nil => exact fun h => by simpa using h
    | cons a as ih =>
        intro l h
        have whole := ih (h.spaced (t := .symbol .assign) rfl a.calm)
        simpa using whole
  exact aliases t.aliases t.tag.calm

theorem Annex.calm (a : Annex) : a.layout.Calm := by
  unfold Annex.layout
  split
  · exact token rfl
  · have list : (Layout.commas (a.subtags.map Subtag.layout)).Calm := by
      refine commas fun l hl => ?_
      obtain ⟨t, -, rfl⟩ := List.mem_map.1 hl
      exact t.calm
    have name : Layout.Calm [.token (.annex a.path)] := token rfl
    exact name.mark (t := .symbol .leftParen) rfl (list.snoc rfl rfl)

theorem Name.calm (n : Name) : n.layout.Calm := by
  cases n with
  | ident i => exact i.calm
  | annex a => exact a.calm

theorem DeclForm.calm_axmOptions {l : Layout} (h : l.Calm) (normalizer : Option Ident)
    (curryAndTrip : Option (Nat × Option Ident)) :
    Layout.Calm (l ++ DeclForm.layout.axmOptions normalizer curryAndTrip) := by
  have named : ∀ (i : Option Ident) {l : Layout}, l.Calm →
      Layout.Calm (l ++ i.elim [] fun i => [.sign .comma, .gap] ++ i.layout)
    | none, _, h => by simpa using h
    | some i, _, h => h.mark (t := .symbol .comma) rfl i.calm
  unfold DeclForm.layout.axmOptions
  match curryAndTrip with
  | none => simpa using named normalizer h
  | some (n, trip) =>
    have count : Layout.Calm [.token (.literal (.int n))] := token rfl
    have whole := named trip ((named normalizer h).mark (t := .symbol .comma) rfl count)
    simpa [Layout.Calm] using whole

end Names

section Openings

/-- Where no declaration is out of place, none begins the rest of some domains. -/
theorem Binder.declares_each {codomain : Bool} :
    ∀ bs : List Binder, InPlace (misplaced (Binder.next codomain bs)) →
      InPlace (Binder.choicesEach codomain bs) → (Binder.layoutEach bs).declares = false
  | [], _, _ => rfl
  | b :: bs, hb, hbs => by
      simp only [Binder.choicesEach, inPlace_append] at hbs
      rw [Binder.layoutEach, List.cons_append, declares_gap]
      exact declares_append ((inPlace_misplaced _).1 hb) (Binder.declares_each bs hbs.1.2 hbs.2)

theorem Param.declares_each {codomain : Bool} :
    ∀ ps : List Param, InPlace (misplaced (Param.next codomain ps)) →
      InPlace (Param.choicesEach codomain ps) → (Param.layoutEach ps).declares = false
  | [], _, _ => rfl
  | ⟨domain, none, _⟩ :: ps, hp, hps => by
      simp only [Param.choicesEach, inPlace_append] at hps
      have rest := Param.declares_each ps hps.1.2 hps.2
      have first : domain.layout.declares = false := (inPlace_misplaced _).1 hp
      simpa [Param.layoutEach, Expr.layoutAfter, declares_gap] using declares_append first rest
  | ⟨domain, some filter, _⟩ :: ps, hp, hps => by
      have first : domain.layout.declares = false := (inPlace_misplaced _).1 hp
      have sign := declares_append first (declares_spaced (.symbol .atSign) rfl rfl
        (filter.layout ++ Param.layoutEach ps))
      simpa [Param.layoutEach, Expr.layoutAfter, declares_gap] using sign

theorem Arm.declares_each : ∀ arms : List Arm, InPlace (misplaced (Arm.next arms)) →
    (Layout.join [.gap, .sign .pipe] (Arm.layouts arms)).declares = false
  | [], _ => rfl
  | ⟨binder, body, _⟩ :: arms, h => by
      have first : binder.layout.declares = false := (inPlace_misplaced _).1 h
      have sign (l : Layout) := declares_append first (declares_spaced (.symbol .fatArrow) rfl rfl l)
      cases arms with
      | nil => simpa [Arm.layouts, Layout.join, declares_gap] using sign body.layout
      | cons a arms =>
          cases a
          simpa [Arm.layouts, Layout.join, declares_gap] using sign _

end Openings

mutual

theorem Expr.calm {least : Prec} : ∀ e : Expr, InPlace (e.choices least) → e.layout.Calm
  | ⟨form, _⟩, h => form.calm h

theorem Form.calm {least : Prec} : ∀ form : Form, InPlace (form.choices least) → form.layout.Calm
  | .primitive _, _ | .ident _, _ | .annex _, _ | .literal _, _ => token rfl
  | .error, _ => nil
  | .ascribed value _ ty, h => by
      simp only [Form.choices, inPlace_append] at h
      have whole : Layout.Calm ([.token (.literal value)] ++ _ ++ ty.layout) :=
        Layout.Calm.spaced (t := .symbol .colon) (token rfl) rfl (ty.calm h.2)
      exact whole
  | .block ds body, h => by
      simp only [Form.choices, inPlace_append] at h
      exact Decl.calm_inner (body.calm h.2) ds h.1
  | .pi kind domain codomain, h => by
      simp only [Form.choices, inPlace_append] at h
      have lead : (kind.layout ++ domain.layout).Calm := by
        cases kind with
        | arrow => exact domain.calm h.1
        | cn => exact (domain.calm h.1).lead (t := .keyword .cnType) rfl
        | fn => exact (domain.calm h.1).lead (t := .keyword .fnType) rfl
      exact Expr.calm_after lead rfl codomain h.2
  | .lambda kind domains codomain body, h => by
      simp only [Form.choices, inPlace_append] at h
      obtain ⟨⟨domains_placed, codomain_placed⟩, body_placed⟩ := h
      have lead : Layout.Calm (.word kind.keyword :: Binder.layoutEach domains) := by
        cases kind with
        | lm => exact (Binder.calm_each domains domains_placed).lead (t := .keyword .lm) rfl
        | cn => exact (Binder.calm_each domains domains_placed).lead (t := .keyword .cn) rfl
      have whole := (Expr.calm_after lead (t := .symbol .colon) rfl codomain codomain_placed).spaced
        (t := .symbol .assign) rfl (body.calm body_placed)
      simpa [Form.layout] using whole
  | .insert a b c, h => by
      simp only [Form.choices, inPlace_append] at h
      have list : (Layout.commas [a.layout, b.layout, c.layout]).Calm := by
        refine commas fun l hl => ?_
        simp only [List.mem_cons, List.not_mem_nil, or_false] at hl
        rcases hl with rfl | rfl | rfl
        · exact a.calm h.1.1
        · exact b.calm h.1.2
        · exact c.calm h.2
      exact (bracketed .leftParen .rightParen rfl list).lead
        (t := .keyword .ins) rfl
  | .ret binder a b c, h => by
      simp only [Form.choices, inPlace_append] at h
      obtain ⟨⟨⟨⟨-, hbinder⟩, ha⟩, hb⟩, hc⟩ := h
      have lead : Layout.Calm ([.word .ret, .gap] ++ binder.layout) :=
        (binder.calm hbinder).lead (t := .keyword .ret) rfl
      have whole := ((lead.spaced (t := .symbol .assign) rfl (a.calm ha)).spaced
        (t := .symbol .dollar) rfl (b.calm hb)).mark (t := .symbol .semicolon) rfl (c.calm hc)
      simpa [Form.layout, Layout.Calm] using whole
  | .uniq inner, h => bracketed _ _ rfl (inner.calm h)
  | .array sizes element, h => by
      simp only [Form.choices, inPlace_append] at h
      have whole := bracketed .leftArray .rightArray rfl
        ((commas (Expr.calm_all sizes h.1)).mark (t := .symbol .semicolon) rfl (element.calm h.2))
      simpa [Form.layout, Layout.Calm] using whole
  | .pack shape body, h => by
      simp only [Form.choices, inPlace_append] at h
      have whole := bracketed .leftPack .rightPack rfl
        ((shape.calm h.1).mark (t := .symbol .semicolon) rfl (body.calm h.2))
      simpa [Form.layout, Layout.Calm] using whole
  | .sigma tuple none, h => by
      have whole := tuple.calm h
      simpa [Form.layout] using whole
  | .sigma tuple (some name), h => by
      have whole := (tuple.calm h).spaced (t := .keyword .as_) rfl name.calm
      simpa [Form.layout] using whole
  | .tuple es, h => bracketed _ _ rfl (commas (Expr.calm_all es h))
  | .match_ scrutinee arms, h => by
      simp only [Form.choices, inPlace_append] at h
      obtain ⟨⟨hs, first⟩, harms⟩ := h
      have arms_calm := Arm.calm_each arms harms
      have apart : (Layout.join [.gap, .sign .pipe] (Arm.layouts arms)).declares = false :=
        Arm.declares_each arms first
      have with_ : Layout.Calm (.word .with_ :: Layout.join [.gap, .sign .pipe] (Arm.layouts arms)) :=
        arms_calm.cons rfl fun _ => apart
      have lead : Layout.Calm ([.word .match_, .gap] ++ scrutinee.layout) :=
        (scrutinee.calm hs).lead (t := .keyword .match_) rfl
      have whole := lead.append with_ (declares_token rfl _)
      simpa [Form.layout, Layout.Calm] using whole
  | .extraction tuple index, h => by
      simp only [Form.choices, inPlace_append] at h
      exact (tuple.calm h.1).mark (t := .symbol .hash) rfl (index.calm h.2)
  | .arrow domain codomain, h => by
      simp only [Form.choices, inPlace_append] at h
      exact (domain.calm h.1).spaced rfl (codomain.calm h.2)
  | .union variants, h =>
    join (fun h h' => h.spaced (t := .symbol .union) rfl h') (Expr.calm_all variants h)
  | .injection value ty, h => by
      simp only [Form.choices, inPlace_append] at h
      exact (value.calm h.1).spaced rfl (ty.calm h.2)
  | .application callee argument true, h => by
      simp only [Form.choices, inPlace_append] at h
      exact (callee.calm h.1.1).spaced (t := .symbol .atSign) rfl (argument.calm h.2)
  | .application callee argument false, h => by
      simp only [Form.choices, Bool.false_eq_true, if_false, inPlace_append, inPlace_misplaced] at h
      have whole := (callee.calm h.1.1).append (argument.calm h.2) h.1.2.2
      simpa [Form.layout, Layout.Calm] using whole
  | .where_ body ds, h => by
      simp only [Form.choices, inPlace_append] at h
      have end_ : Layout.Calm [.word .end_] := token rfl
      have whole := (body.calm h.1).spaced (t := .keyword .where_) rfl (Decl.calm_inner end_ ds h.2)
      simpa [Form.layout] using whole

theorem Expr.calm_all {first others : Prec} : ∀ es : List Expr,
    InPlace (Expr.choicesEach first others es) → ∀ l ∈ Expr.layouts es, Layout.Calm l
  | [], _, _, hl => nomatch hl
  | e :: es, h, l, hl => by
      simp only [Expr.choicesEach, inPlace_append] at h
      rcases List.mem_cons.1 hl with rfl | hl
      · exact e.calm h.1
      · exact Expr.calm_all es h.2 l hl

theorem Expr.calm_after {least : Prec} {l : Layout} {t : Token} (hl : l.Calm) (ht : t.parts) :
    ∀ e : Option Expr, InPlace (Expr.choices? least e) → (l ++ Expr.layoutAfter (spaced t) e).Calm
  | none, _ => by simpa [Expr.layoutAfter] using hl
  | some e, h => by
      have whole := hl.spaced ht (e.calm h)
      simpa [Expr.layoutAfter] using whole

theorem Arm.calm_each : ∀ arms : List Arm, InPlace (Arm.choicesEach arms) →
    (Layout.join [.gap, .sign .pipe] (Arm.layouts arms)).Calm
  | [], _ => nil
  | [⟨binder, body, _⟩], h => by
      simp only [Arm.choicesEach, inPlace_append] at h
      exact (binder.calm h.1.1.2).spaced (t := .symbol .fatArrow) rfl (body.calm h.1.2)
  | ⟨binder, body, _⟩ :: a :: arms, h => by
      rw [Arm.choicesEach, inPlace_append] at h
      obtain ⟨h, hrest⟩ := h
      simp only [inPlace_append] at h
      have arm := (binder.calm h.1.2).spaced (t := .symbol .fatArrow) rfl (body.calm h.2)
      have rest : Arm.layouts (a :: arms) ≠ [] := by cases a; simp [Arm.layouts]
      have whole := arm.mark (t := .symbol .pipe) rfl (Arm.calm_each (a :: arms) hrest)
      rw [Arm.layouts, Layout.join_cons rest]
      simpa [Layout.Calm] using whole

theorem Binder.calm {least : Prec} : ∀ b : Binder, InPlace (b.choices least) → b.layout.Calm
  | .name ident, _ => ident.calm
  | .typed ident ty _, h => by
      have whole := ident.calm.mark (t := .symbol .colon) rfl (ty.calm h)
      simpa [Binder.layout, Layout.Calm] using whole
  | .type ty, h => ty.calm h
  | .group names ty _, h => by
      have whole := (Ident.calm_each names).mark (t := .symbol .colon) rfl (ty.calm h)
      simpa [Binder.layout, Layout.Calm] using whole
  | .tuple .round bs _, h | .tuple .square bs _, h | .tuple .curly bs _, h =>
    bracketed _ _ rfl (commas (Binder.calm_all bs h))

theorem Binder.calm_all {bracket : Bracket} : ∀ bs : List Binder,
    InPlace (Binder.elementChoices bracket bs) → ∀ l ∈ Binder.layouts bs, Layout.Calm l
  | [], _, _, hl => nomatch hl
  | b :: bs, h, l, hl => by
      simp only [Binder.elementChoices, inPlace_append] at h
      rcases List.mem_cons.1 hl with rfl | hl
      · exact b.calm h.1.2
      · exact Binder.calm_all bs h.2 l hl

theorem Binder.calm_each {codomain : Bool} : ∀ bs : List Binder,
    InPlace (Binder.choicesEach codomain bs) → (Binder.layoutEach bs).Calm
  | [], _ => nil
  | b :: bs, h => by
      simp only [Binder.choicesEach, inPlace_append] at h
      obtain ⟨⟨⟨first, -⟩, apart⟩, rest⟩ := h
      have whole := (b.calm first).append (Binder.calm_each bs rest) (Binder.declares_each bs apart rest)
      simpa [Binder.layoutEach, Layout.Calm] using whole

theorem Decl.calm : ∀ d : Decl, InPlace d.choices → d.layout.Calm
  | ⟨doc, form, _⟩, h => by
      have whole := form.calm h
      simpa [Layout.Calm, Grammar.tokens_decl, Grammar.undoc_docs] using whole

theorem Decl.calm_inner {l : Layout} (hl : l.Calm) : ∀ ds : List Decl,
    InPlace (Decl.choicesEach ds) → (Decl.innerLayout ds ++ l).Calm
  | [], _ => hl
  | d :: ds, h => by
      simp only [Decl.choicesEach, inPlace_append] at h
      have whole := (d.calm h.1).mark (t := .symbol .semicolon) rfl (Decl.calm_inner hl ds h.2)
      simpa [Decl.innerLayout, Layout.Calm] using whole

theorem DeclForm.calm : ∀ form : DeclForm, InPlace form.choices → form.layout.Calm
  | .axm name ty normalizer curryAndTrip, h => by
      have lead : Layout.Calm ([.word .axm, .gap] ++ name.layout) := name.calm.cons rfl nofun
      exact DeclForm.calm_axmOptions (lead.spaced (t := .symbol .colon) rfl (ty.calm h)) _ _
  | .cfun domain ty, h => by
      simp only [DeclForm.choices, inPlace_append] at h
      have lead : Layout.Calm ([.word .cfun, .gap] ++ domain.layout) :=
        (domain.calm h.1.2).cons rfl nofun
      exact lead.spaced (t := .symbol .colon) rfl (ty.calm h.2)
  | .ccon domain, h => (domain.calm h).cons rfl nofun
  | .letAnnex target value, h => by
      have lead : Layout.Calm ([.word .let_, .gap] ++ target.layout) := target.calm.cons rfl nofun
      exact lead.spaced (t := .symbol .assign) rfl (value.calm h)
  | .let_ target value, h => by
      simp only [DeclForm.choices, inPlace_append] at h
      have lead : Layout.Calm ([.word .let_, .gap] ++ target.layout) :=
        (target.calm h.1.2).cons rfl nofun
      exact lead.spaced (t := .symbol .assign) rfl (value.calm h.2)
  | .rec_ bindings lam, h => by
      simp only [DeclForm.choices, inPlace_append] at h
      have list := join (fun h h' => h.spaced (t := .keyword .and_) rfl h')
        (RecBinding.calm_all bindings h.1)
      have lead : Layout.Calm ([.word .rec_, .gap] ++ _) := list.cons rfl nofun
      exact Lam.calm_after lead lam h.2
  | .lam lam, h => lam.calm h
  | .rule kind binder lhs guard rhs, h => by
      simp only [DeclForm.choices, inPlace_append] at h
      obtain ⟨⟨⟨⟨-, hb⟩, hl⟩, hg⟩, hr⟩ := h
      have lead : Layout.Calm ([.word kind.keyword, .gap] ++ binder.layout) := by
        cases kind <;> exact (binder.calm hb).cons rfl nofun
      exact (Expr.calm_after (lead.spaced (t := .symbol .colon) rfl (lhs.calm hl)) rfl guard hg).spaced
        (t := .symbol .fatArrow) rfl (rhs.calm hr)
  | .error, _ => nil

theorem RecBinding.calm_all : ∀ bs : List RecBinding, InPlace (RecBinding.choicesEach bs) →
    ∀ l ∈ RecBinding.layouts bs, Layout.Calm l
  | [], _, _, hl => nomatch hl
  | ⟨name, ty, value, _⟩ :: bs, h, l, hl => by
      simp only [RecBinding.choicesEach, inPlace_append] at h
      rcases List.mem_cons.1 hl with rfl | hl
      · exact (Expr.calm_after name.calm (t := .symbol .colon) rfl ty h.1.1).spaced
          (t := .symbol .assign) rfl (value.calm h.1.2)
      · exact RecBinding.calm_all bs h.2 l hl

theorem Lam.calm : ∀ lam : Lam, InPlace lam.choices → lam.layout.Calm
  | ⟨kind, isExternal, name, params, codomain, body, _⟩, h => by
      simp only [Lam.choices, inPlace_append] at h
      obtain ⟨⟨⟨apart, hp⟩, hc⟩, hb⟩ := h
      have named : (name.layout ++ Param.layoutEach params).Calm :=
        name.calm.append (Param.calm_each params hp) (Param.declares_each params apart hp)
      have external : Layout.Calm ((if isExternal then [.gap, .word .external] else []) ++
          .gap :: (name.layout ++ Param.layoutEach params)) := by
        cases isExternal with
        | false => exact named
        | true => exact named.lead (t := .keyword .external) rfl
      have lead : Layout.Calm (.word kind.keyword ::
          ((if isExternal then [.gap, .word .external] else []) ++
            .gap :: (name.layout ++ Param.layoutEach params))) := by
        cases kind <;> exact external.cons rfl nofun
      have whole := Expr.calm_after (Expr.calm_after lead (t := .symbol .colon) rfl codomain hc)
        (t := .symbol .assign) rfl body hb
      simpa [Lam.layout] using whole

theorem Lam.calm_after {l : Layout} (hl : l.Calm) : ∀ lam : Option Lam, InPlace (Lam.choices? lam) →
    (l ++ Lam.layoutAfter (spaced (.keyword .and_)) lam).Calm
  | none, _ => by simpa [Lam.layoutAfter] using hl
  | some lam, h => by
      have whole := hl.spaced (t := .keyword .and_) rfl (lam.calm h)
      simpa [Lam.layoutAfter] using whole

theorem Param.calm_each {codomain : Bool} : ∀ ps : List Param,
    InPlace (Param.choicesEach codomain ps) → (Param.layoutEach ps).Calm
  | [], _ => nil
  | ⟨domain, none, _⟩ :: ps, h => by
      simp only [Param.choicesEach, inPlace_append] at h
      obtain ⟨⟨⟨first, -⟩, apart⟩, rest⟩ := h
      have whole := (domain.calm first).append (Param.calm_each ps rest)
        (Param.declares_each ps apart rest)
      simpa [Param.layoutEach, Expr.layoutAfter, Layout.Calm] using whole
  | ⟨domain, some filter, _⟩ :: ps, h => by
      simp only [Param.choicesEach, inPlace_append] at h
      obtain ⟨⟨⟨⟨⟨first, -⟩, second⟩, -⟩, apart⟩, rest⟩ := h
      have both := (domain.calm first).spaced (t := .symbol .atSign) rfl (filter.calm second)
      have whole := both.append (Param.calm_each ps rest) (Param.declares_each ps apart rest)
      simpa [Param.layoutEach, Expr.layoutAfter, Layout.Calm] using whole

end

/-- Where no choice in a file is about a declaration out of place, its layout has none. -/
theorem File.calm (f : File) (h : InPlace f.choices) : f.layout.Calm := by
  have declarations : Layout.Calm (Decl.innerLayout f.declarations) := by
    have whole := Decl.calm_inner nil f.declarations h
    rwa [List.append_nil] at whole
  have parts : ∀ ds : List Dependency,
      Layout.Calm ((ds.flatMap Dependency.layout) ++ Decl.innerLayout f.declarations) := by
    intro ds
    induction ds with
    | nil => exact declarations
    | cons d ds ih =>
        have lead : Layout.Calm ([.word d.kind.keyword, .gap] ++ d.name.layout) := by
          cases d.kind <;> exact d.name.calm.cons rfl nofun
        have whole := lead.mark (t := .symbol .semicolon) rfl ih
        simpa [Dependency.layout, Layout.Calm] using whole
  have whole := parts f.dependencies
  unfold Layout.Calm at whole ⊢
  rw [Grammar.tokens_file]
  rwa [tokens_append, tokens_flatMap] at whole

end Mim
