import Mathlib.Data.List.Chain
import Mim.Layout

/-! # Layouts keep their tokens apart

In the layout of a tree no token stands where its text would run into the next one: a word
or a number has a blank or a sign behind it, and a doc comment has the line to itself.
-/

namespace Mim

open Layout

/-- A piece that may stand behind any piece of a tree, and in front of any. -/
def Piece.isMark : Piece → Bool
  | .gap | .line | .placeholder => true
  | .token (.symbol sign) =>
    match sign with
    | .arrow | .dot | .assign | .pipe | .leftBrace => false
    | _ => true
  | .token _ => false

/-- Whether a piece may stand directly in front of another. -/
def Piece.joins (p q : Piece) : Bool :=
  match p with
  | .gap | .line | .placeholder => true
  | .token (.doc _) => q == .line
  | .token (.symbol .assign) | .token (.symbol .pipe) => q == .gap
  | .token (.symbol .leftBrace) => q != .sign .pipe
  | .token (.symbol .dot) | .token .percent | .token (.error _) => false
  | .token (.symbol _) | .token (.literal (.string _)) | .token (.literal (.char _)) => true
  | .token _ => q.isMark

theorem Piece.joins_of_isMark {p : Piece} (h : p.isMark) (q : Piece) : p.joins q := by
  unfold isMark at h
  split at h
  · rfl
  · rfl
  · rfl
  · next sign => cases sign <;> first | rfl | cases h
  · cases h

/-- What may stand in front of a comma may stand in front of any mark. -/
theorem Piece.joins_mark {p q : Piece} (h : p.joins (.sign .comma)) (hq : q.isMark) : p.joins q := by
  cases p with
  | token t =>
      cases t with
      | symbol sign =>
          cases sign
          case leftBrace =>
            refine bne_iff_ne.2 ?_
            rintro rfl
            cases hq
          all_goals first | rfl | cases h
      | literal value => cases value <;> first | rfl | exact hq
      | doc line => cases h
      | percent => cases h
      | error reason => cases h
      | _ => exact hq
  | _ => rfl

/-- A layout whose tokens are kept apart, wherever it stands. -/
def Layout.Fits (l : Layout) : Prop :=
  List.IsChain (Piece.joins · ·) (.sign .leftBrace :: l ++ [.sign .comma])

theorem Layout.join_cons {separator l : Layout} {ls : List Layout} (h : ls ≠ []) :
    join separator (l :: ls) = l ++ separator ++ join separator ls := by
  cases ls with
  | nil => exact absurd rfl h
  | cons _ _ => rfl

namespace Layout.Fits

variable {l l' : Layout} {q : Piece} {t : Token}

theorem nil : Fits [] := List.isChain_pair.2 rfl

/-- A layout in front of a mark. -/
theorem before (h : Fits l) (hq : q.isMark) :
    List.IsChain (Piece.joins · ·) (.sign .leftBrace :: l ++ [q]) := by
  obtain ⟨left, -, last⟩ := List.isChain_append.1 h
  refine List.isChain_append.2 ⟨left, List.isChain_singleton _, ?_⟩
  rintro p hp _ ⟨⟩
  exact Piece.joins_mark (last p hp _ rfl) hq

/-- A mark in front of a layout. -/
theorem behind (h : Fits l) (hq : q.isMark) :
    List.IsChain (Piece.joins · ·) (q :: l ++ [.sign .comma]) := by
  cases l with
  | nil => exact List.isChain_pair.2 (Piece.joins_of_isMark hq _)
  | cons p l => exact List.isChain_cons_cons.2 ⟨Piece.joins_of_isMark hq _, (List.isChain_cons_cons.1 h).2⟩

/-- Two layouts with a mark between them. -/
theorem mark (h : Fits l) (hq : q.isMark) (h' : Fits l') : Fits (l ++ q :: l') := by
  have both := List.isChain_split.2 ⟨h.before hq, h'.behind hq⟩
  simpa [Fits] using both

/-- A token that may stand between a brace and a comma. -/
theorem token (h : Piece.joins (.token t) (.sign .comma)) (ht : t ≠ .symbol .pipe) :
    Fits [.token t] := by
  refine List.isChain_cons_cons.2 ⟨?_, List.isChain_pair.2 h⟩
  exact bne_iff_ne.2 fun e => ht (Piece.token.inj e)

theorem word (k : Keyword) : Fits [.word k] := token rfl (by simp)

/-- A mark and a layout behind it. -/
theorem cons (hq : q.isMark) (h : Fits l) : Fits (q :: l) := nil.mark hq h

/-- A layout and a mark behind it. -/
theorem snoc (h : Fits l) (hq : q.isMark) : Fits (l ++ [q]) := h.mark hq nil

/-- Two layouts with a token between blanks. -/
theorem spaced (h : Fits l) (ht : Piece.joins (.token t) .gap) (h' : Fits l') :
    Fits (l ++ spaced t ++ l') := by
  have inner : List.IsChain (Piece.joins · ·) (.gap :: .token t :: .gap :: l' ++ [.sign .comma]) :=
    List.isChain_cons_cons.2 ⟨rfl, List.isChain_cons_cons.2 ⟨ht, h'.behind rfl⟩⟩
  have both := List.isChain_split.2 ⟨h.before (q := .gap) rfl, inner⟩
  simpa [Fits, Layout.spaced] using both

theorem join {separator : Layout} (hs : ∀ {l l' : Layout}, Fits l → Fits l' → Fits (l ++ separator ++ l')) :
    ∀ {ls : List Layout}, (∀ l ∈ ls, Fits l) → Fits (join separator ls)
  | [], _ => nil
  | [l], h => h l List.mem_cons_self
  | l :: _ :: _, h =>
    hs (h l List.mem_cons_self) (join hs fun m hm => h m (List.mem_cons_of_mem _ hm))

theorem join_spaced (ht : Piece.joins (.token t) .gap) {ls : List Layout} (h : ∀ l ∈ ls, Fits l) :
    Fits (Layout.join (Layout.spaced t) ls) := join (fun h h' => h.spaced ht h') h

theorem commas {ls : List Layout} (h : ∀ l ∈ ls, Fits l) : Fits (commas ls) :=
  join (fun h h' => by simpa using h.mark (q := .sign .comma) rfl (h'.cons (q := .gap) rfl)) h

/-- A layout between brackets. -/
theorem bracketed (left right : Symbol) (hl : (Piece.sign left).isMark) (hr : (Piece.sign right).isMark)
    (h : Fits l) : Fits (.sign left :: l ++ [.sign right]) := (h.snoc hr).cons hl

theorem braced (h : Fits l) : Fits (.sign .leftBrace :: l ++ [.sign .rightBrace]) := by
  have inner : Fits (l ++ [.sign .rightBrace]) := h.snoc rfl
  exact List.isChain_cons_cons.2 ⟨rfl, inner⟩

theorem docLayout (doc : Option String) (h : Fits l) : Fits (docLayout doc ++ l) := by
  unfold Mim.docLayout
  induction docLines (doc.getD "").toList with
  | nil => exact h
  | cons line lines ih =>
      refine List.isChain_cons_cons.2 ⟨rfl, List.isChain_cons_cons.2 ⟨rfl, ?_⟩⟩
      simpa [List.flatMap_def] using ih.behind (q := .line) rfl

end Layout.Fits

open Layout.Fits

theorem Ident.fits (i : Ident) : i.layout.Fits := token rfl (by simp)

theorem Subtag.fits (t : Subtag) : t.layout.Fits := by
  have aliases : ∀ (as : List Ident) {l : Layout}, l.Fits →
      Layout.Fits (l ++ as.flatMap fun a => spaced (.symbol .assign) ++ a.layout) := by
    intro as
    induction as with
    | nil => exact fun h => by simpa using h
    | cons a as ih =>
        intro l h
        have whole := ih (h.spaced (t := .symbol .assign) rfl a.fits)
        simpa using whole
  exact aliases t.aliases t.tag.fits

theorem Annex.fits (a : Annex) : a.layout.Fits := by
  unfold Annex.layout
  split
  · exact token rfl (by simp)
  · have list : (commas (a.subtags.map Subtag.layout)).Fits := by
      refine commas fun l hl => ?_
      obtain ⟨t, -, rfl⟩ := List.mem_map.1 hl
      exact t.fits
    exact (token (t := .annex a.path) rfl (by simp)).mark (q := .sign .leftParen) rfl
      (list.snoc (q := .sign .rightParen) rfl)

theorem Name.fits : ∀ n : Name, n.layout.Fits
  | .ident i => i.fits
  | .annex a => a.fits

theorem Literal.fits (v : Literal) : Layout.Fits [.token (.literal v)] :=
  token (by cases v <;> rfl) (by simp)

theorem Layout.Fits.idents (is : List Ident) :
    Layout.Fits (Layout.join [.gap] (is.map Ident.layout)) := by
  refine join (fun {l l'} h h' => ?_) fun l hl => ?_
  · have whole : Layout.Fits (l ++ .gap :: l') := h.mark rfl h'
    simpa using whole
  obtain ⟨i, -, rfl⟩ := List.mem_map.1 hl
  exact i.fits

/-- A layout with a colon and a blank behind it. -/
theorem Layout.Fits.colon {l l' : Layout} (h : l.Fits) (h' : l'.Fits) :
    Layout.Fits (l ++ [.sign .colon, .gap] ++ l') := by
  have whole := h.mark (q := .sign .colon) rfl (h'.cons (q := .gap) rfl)
  simpa using whole

/-- A word with a blank behind it. -/
theorem Layout.Fits.lead (k : Keyword) {l : Layout} (h : l.Fits) :
    Layout.Fits ([.word k, .gap] ++ l) :=
  (word k).mark (q := .gap) rfl h

theorem PiKind.fits {l : Layout} (h : l.Fits) : ∀ kind : PiKind, (kind.layout ++ l).Fits
  | .arrow => h
  | .cn => h.lead .cnType
  | .fn => h.lead .fnType

/-- A layout, a comma and a layout behind it. -/
theorem Layout.Fits.comma {l l' : Layout} (h : l.Fits) (h' : l'.Fits) :
    Layout.Fits (l ++ ([.sign .comma, .gap] ++ l')) := by
  have whole := h.mark (q := .sign .comma) rfl (h'.cons (q := .gap) rfl)
  simpa using whole

theorem DeclForm.fits_axmOptions {l : Layout} (h : l.Fits) (normalizer : Option Ident)
    (curryAndTrip : Option (Nat × Option Ident)) :
    Layout.Fits (l ++ DeclForm.layout.axmOptions normalizer curryAndTrip) := by
  have named : ∀ (i : Option Ident) {l : Layout}, l.Fits →
      Layout.Fits (l ++ i.elim [] fun i => [.sign .comma, .gap] ++ i.layout)
    | none, _, h => by simpa using h
    | some i, _, h => h.comma i.fits
  unfold DeclForm.layout.axmOptions
  match curryAndTrip with
  | none => simpa using named normalizer h
  | some (n, trip) =>
    have count := (named normalizer h).comma (Literal.fits (.int n))
    have whole := named trip count
    simpa using whole

mutual

theorem Expr.fits : ∀ e : Expr, e.layout.Fits
  | ⟨form, _⟩ => form.fits

theorem Form.fits : ∀ form : Form, form.layout.Fits
  | .primitive _ | .ident _ | .annex _ => token rfl (by simp)
  | .literal value => value.fits
  | .ascribed value _ ty => value.fits.spaced rfl ty.fits
  | .block ds body => Decl.fits_inner body.fits ds
  | .pi kind domain codomain => by
      have domain := PiKind.fits domain.fits kind
      exact Expr.fits_after domain rfl codomain
  | .lambda kind domains codomain body =>
      (Expr.fits_after (Binder.fits_each (word kind.keyword) domains) rfl codomain).spaced rfl body.fits
  | .insert a b c => by
      have list : (commas [a.layout, b.layout, c.layout]).Fits := by
        refine commas fun l hl => ?_
        simp only [List.mem_cons, List.not_mem_nil, or_false] at hl
        rcases hl with rfl | rfl | rfl
        · exact a.fits
        · exact b.fits
        · exact c.fits
      exact (word .ins).mark (q := .sign .leftParen) rfl (list.snoc (q := .sign .rightParen) rfl)
  | .ret binder a b c => by
      have whole := ((binder.fits.lead .ret).spaced (t := .symbol .assign) rfl a.fits).spaced
        (t := .symbol .dollar) rfl (b.fits.mark (q := .sign .semicolon) rfl (c.fits.cons (q := .gap) rfl))
      simpa [Form.layout] using whole
  | .uniq inner => bracketed _ _ rfl rfl inner.fits
  | .array sizes element => by
      have sizes := commas (Expr.fits_all sizes)
      have whole := bracketed .leftArray .rightArray rfl rfl
        (sizes.mark (q := .sign .semicolon) rfl (element.fits.cons (q := .gap) rfl))
      simpa [Form.layout] using whole
  | .pack shape body => by
      have whole := bracketed .leftPack .rightPack rfl rfl
        (shape.fits.mark (q := .sign .semicolon) rfl (body.fits.cons (q := .gap) rfl))
      simpa [Form.layout] using whole
  | .sigma tuple none => by
      have whole := tuple.fits
      simpa [Form.layout] using whole
  | .sigma tuple (some name) => by
      have whole := tuple.fits.spaced (t := .keyword .as_) rfl name.fits
      simpa [Form.layout] using whole
  | .tuple es => bracketed _ _ rfl rfl (commas (Expr.fits_all es))
  | .match_ scrutinee [] => by
      have whole := (scrutinee.fits.lead .match_).mark (q := .gap) rfl (word .with_)
      simpa [Form.layout, Arm.layouts, Layout.join] using whole
  | .match_ scrutinee (a :: arms) => by
      obtain ⟨l, eq, fits⟩ := Arm.fits_all (a :: arms) (List.cons_ne_nil _ _)
      have whole := ((scrutinee.fits.lead .match_).mark (q := .gap) rfl (word .with_)).mark
        (q := .gap) rfl fits
      simp only [Form.layout, eq]
      simpa using whole
  | .extraction tuple index => tuple.fits.mark (q := .sign .hash) rfl index.fits
  | .arrow domain codomain => domain.fits.spaced rfl codomain.fits
  | .union variants => join_spaced rfl (Expr.fits_all variants)
  | .injection value ty => value.fits.spaced rfl ty.fits
  | .application callee argument true => callee.fits.spaced rfl argument.fits
  | .application callee argument false => by
      have whole := callee.fits.mark (q := .gap) rfl argument.fits
      simpa [Form.layout] using whole
  | .where_ body ds => by
      have whole := body.fits.spaced (t := .keyword .where_) rfl (Decl.fits_inner (word .end_) ds)
      simpa [Form.layout] using whole
  | .error => nil.cons rfl

theorem Expr.fits_all : ∀ (es : List Expr), ∀ l ∈ Expr.layouts es, Layout.Fits l
  | [], _, hl => nomatch hl
  | e :: es, l, hl => (List.mem_cons.1 hl).elim (fun h => h ▸ e.fits) (Expr.fits_all es l)

theorem Expr.fits_after {l : Layout} {t : Token} (h : l.Fits) (ht : Piece.joins (.token t) .gap) :
    ∀ e : Option Expr, (l ++ Expr.layoutAfter (spaced t) e).Fits
  | none => by simpa [Expr.layoutAfter] using h
  | some e => by
      have whole := h.spaced ht e.fits
      simpa [Expr.layoutAfter] using whole

theorem Arm.fits_all : ∀ arms : List Arm, arms ≠ [] →
    ∃ l : Layout, Layout.join [.gap, .sign .pipe] (Arm.layouts arms) = .gap :: l ∧ l.Fits
  | [], h => absurd rfl h
  | [⟨binder, body, _⟩], _ => ⟨_, rfl, binder.fits.spaced rfl body.fits⟩
  | ⟨binder, body, _⟩ :: a :: arms, _ => by
      obtain ⟨l, eq, fits⟩ := Arm.fits_all (a :: arms) (List.cons_ne_nil _ _)
      refine ⟨_, ?_, (binder.fits.spaced (t := .symbol .fatArrow) rfl body.fits).spaced
        (t := .symbol .pipe) rfl fits⟩
      have rest : Arm.layouts (a :: arms) ≠ [] := by cases a; simp [Arm.layouts]
      rw [Arm.layouts, Layout.join_cons rest, eq]
      simp [Layout.spaced, Piece.sign]

theorem Binder.fits : ∀ b : Binder, b.layout.Fits
  | .name ident => ident.fits
  | .typed ident ty _ => ident.fits.colon ty.fits
  | .type ty => ty.fits
  | .group names ty _ => (Layout.Fits.idents names).colon ty.fits
  | .tuple .round bs _ => bracketed _ _ rfl rfl (commas (Binder.fits_all bs))
  | .tuple .square bs _ => bracketed _ _ rfl rfl (commas (Binder.fits_all bs))
  | .tuple .curly bs _ => braced (commas (Binder.fits_all bs))

theorem Binder.fits_all : ∀ (bs : List Binder), ∀ l ∈ Binder.layouts bs, Layout.Fits l
  | [], _, hl => nomatch hl
  | b :: bs, l, hl => (List.mem_cons.1 hl).elim (fun h => h ▸ b.fits) (Binder.fits_all bs l)

theorem Binder.fits_each {l : Layout} (h : l.Fits) : ∀ bs : List Binder, (l ++ Binder.layoutEach bs).Fits
  | [] => by simpa [Binder.layoutEach] using h
  | b :: bs => by
      have whole := Binder.fits_each (h.mark (q := .gap) rfl b.fits) bs
      simpa [Binder.layoutEach] using whole

theorem Decl.fits : ∀ d : Decl, d.layout.Fits
  | ⟨doc, form, _⟩ => form.fits.docLayout doc

theorem Decl.fits_inner {l : Layout} (h : l.Fits) : ∀ ds : List Decl, (Decl.innerLayout ds ++ l).Fits
  | [] => h
  | d :: ds => by
      have whole := d.fits.mark (q := .sign .semicolon) rfl ((Decl.fits_inner h ds).cons (q := .gap) rfl)
      simpa [Decl.innerLayout] using whole

theorem DeclForm.fits : ∀ form : DeclForm, form.layout.Fits
  | .axm name ty normalizer curryAndTrip =>
      DeclForm.fits_axmOptions ((name.fits.lead .axm).spaced rfl ty.fits) normalizer curryAndTrip
  | .cfun domain ty => (domain.fits.lead .cfun).spaced rfl ty.fits
  | .ccon domain => domain.fits.lead .ccon
  | .letAnnex target value => (target.fits.lead .let_).spaced rfl value.fits
  | .let_ target value => (target.fits.lead .let_).spaced rfl value.fits
  | .rec_ bindings lam => 
      Lam.fits_after ((join_spaced rfl (RecBinding.fits_all bindings)).lead .rec_) lam
  | .lam lam => lam.fits
  | .rule kind binder lhs guard rhs =>
      (Expr.fits_after ((binder.fits.lead kind.keyword).spaced rfl lhs.fits) rfl guard).spaced rfl rhs.fits
  | .error => nil.cons rfl

theorem RecBinding.fits_all : ∀ (bs : List RecBinding), ∀ l ∈ RecBinding.layouts bs, Layout.Fits l
  | [], _, hl => nomatch hl
  | ⟨name, ty, value, _⟩ :: bs, l, hl =>
    (List.mem_cons.1 hl).elim (fun h => h ▸ (Expr.fits_after name.fits rfl ty).spaced rfl value.fits)
      (RecBinding.fits_all bs l)

theorem Lam.fits : ∀ lam : Lam, lam.layout.Fits
  | ⟨kind, isExternal, name, params, codomain, body, _⟩ => by
      have lead : Layout.Fits
          (.word kind.keyword :: if isExternal then [.gap, .word .external] else []) := by
        cases isExternal
        · exact word _
        · exact (word kind.keyword).mark (q := .gap) rfl (word .external)
      have head := Param.fits_each (lead.mark (q := .gap) rfl name.fits) params
      have whole := Expr.fits_after (Expr.fits_after head (t := .symbol .colon) rfl codomain)
        (t := .symbol .assign) rfl body
      simpa [Lam.layout] using whole

theorem Lam.fits_after {l : Layout} (h : l.Fits) :
    ∀ lam : Option Lam, (l ++ Lam.layoutAfter (spaced (.keyword .and_)) lam).Fits
  | none => by simpa [Lam.layoutAfter] using h
  | some lam => by
      have whole := h.spaced (t := .keyword .and_) rfl lam.fits
      simpa [Lam.layoutAfter] using whole

theorem Param.fits_each {l : Layout} (h : l.Fits) : ∀ ps : List Param, (l ++ Param.layoutEach ps).Fits
  | [] => by simpa [Param.layoutEach] using h
  | ⟨domain, filter, _⟩ :: ps => by
      have whole := Param.fits_each (Expr.fits_after (h.mark (q := .gap) rfl domain.fits)
        (t := .symbol .atSign) rfl filter) ps
      simpa [Param.layoutEach] using whole

end

theorem Dependency.fits (d : Dependency) : d.layout.Fits :=
  (d.name.fits.lead d.kind.keyword).snoc (q := .sign .semicolon) rfl

/-- Layouts with a line behind each. -/
theorem Layout.Fits.lines {α : Type} {f : α → Layout} (hf : ∀ x, Layout.Fits (f x)) {l : Layout}
    (h : l.Fits) : ∀ xs : List α, Layout.Fits (xs.flatMap (fun x => f x ++ [.line]) ++ l)
  | [] => h
  | x :: xs => by
      have whole := (hf x).mark (q := .line) rfl (lines hf h xs)
      simpa using whole

theorem File.fits (f : File) : f.layout.Fits := by
  have ended (d : Decl) : Layout.Fits (d.layout ++ [.sign .semicolon]) := d.fits.snoc rfl
  have declared := Layout.Fits.lines ended nil f.declarations
  have divided : ∀ empty : Bool, Layout.Fits ((if empty then [] else [.line]) ++
      f.declarations.flatMap fun d => d.layout ++ [.sign .semicolon, .line])
    | true => by simpa using declared
    | false => by simpa using declared.cons (q := .line) rfl
  have whole := Layout.Fits.lines Dependency.fits
    (divided (f.dependencies.isEmpty || f.declarations.isEmpty)) f.dependencies
  simpa [File.layout] using whole

end Mim
