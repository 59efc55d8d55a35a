import Mim.Layout
import Mim.Proofs.Spanned

/-! # Spans are not laid out

The layout of a tree does not tell where the tree stood. Where its doc comments are changed
too, the layout is the same up to them: whatever is seen of a doc comment that stays the
same is seen of the whole layout.
-/

namespace Mim

open Layout

section Names

variable (f : Change)

theorem Ident.layout_respan (i : Ident) : (respan f i).layout = i.layout := rfl

theorem Subtag.layout_respan (t : Subtag) : (respan f t).layout = t.layout := by
  simp [Subtag.layout, respan, List.flatMap_map, Ident.layout]

theorem Annex.layout_respan (a : Annex) : (respan f a).layout = a.layout := by
  have subtags : (respan f a.subtags).map Subtag.layout = a.subtags.map Subtag.layout :=
    List.map_map.trans (congrArg (List.map · _) (funext (Subtag.layout_respan f)))
  have empty : (respan f a.subtags).isEmpty = a.subtags.isEmpty := List.isEmpty_map
  have parts : respan f a = ⟨a.path, respan f a.subtags, f a.span⟩ := rfl
  rw [parts, Annex.layout, Annex.layout, subtags, empty]

theorem Name.layout_respan (n : Name) : (respan f n).layout = n.layout := by
  cases n with
  | ident i => rfl
  | annex a => exact a.layout_respan f

theorem Ident.layouts_respan (is : List Ident) :
    (respan f is).map Ident.layout = is.map Ident.layout := List.map_map

theorem Dependency.layout_respan (d : Dependency) : (respan f d).layout = d.layout := rfl

end Names

section Seen

variable {α : Type}

/-- What is seen of a joined layout is what is seen of its parts. -/
theorem Layout.flatMap_join (h : Piece → List α) (separator : Layout) : ∀ ls : List Layout,
    (join separator ls).flatMap h =
      (separator.flatMap h).intercalate (ls.map fun l => l.flatMap h)
  | [] => rfl
  | [l] => by simp [join]
  | l :: l' :: ls => by
      rw [join, List.flatMap_append, List.flatMap_append, flatMap_join h separator (l' :: ls),
        List.map_cons, List.map_cons, List.map_cons, List.intercalate_cons_cons]
      all_goals simp

/-- What is seen of each piece of a layout, where no change is seen of doc comments. -/
structure Layout.View (f : Change) (α : Type) where
  seen : Piece → List α
  docs (doc : Option String) : (docLayout (f.doc doc)).flatMap seen = (docLayout doc).flatMap seen

variable {f : Change} (v : Layout.View f α)

mutual

theorem Expr.layout_mapSpan : ∀ e : Expr, (e.mapSpan f).layout.flatMap v.seen = e.layout.flatMap v.seen
  | ⟨form, _⟩ => form.layout_mapSpan

theorem Form.layout_mapSpan :
    ∀ form : Form, (form.mapSpan f).layout.flatMap v.seen = form.layout.flatMap v.seen
  | .primitive _ | .ident _ | .annex _ | .literal _ | .error => rfl
  | .ascribed _ _ ty => by simp [Form.mapSpan, Form.layout, ty.layout_mapSpan]
  | .block ds body => by
      simp [Form.mapSpan, Form.layout, Decl.innerLayout_mapSpans ds, body.layout_mapSpan]
  | .pi _ domain codomain => by
      simp [Form.mapSpan, Form.layout, domain.layout_mapSpan, Expr.layoutAfter_mapSpan codomain]
  | .lambda _ domains codomain body => by
      simp [Form.mapSpan, Form.layout, Binder.layoutEach_mapSpans domains,
        Expr.layoutAfter_mapSpan codomain, body.layout_mapSpan]
  | .insert a b c => by
      simp [Form.mapSpan, Form.layout, commas, flatMap_join, a.layout_mapSpan, b.layout_mapSpan,
        c.layout_mapSpan]
  | .ret binder a b c => by
      simp [Form.mapSpan, Form.layout, binder.layout_mapSpan, a.layout_mapSpan, b.layout_mapSpan,
        c.layout_mapSpan]
  | .uniq inner => by simp [Form.mapSpan, Form.layout, inner.layout_mapSpan]
  | .array sizes element => by
      simp [Form.mapSpan, Form.layout, commas, flatMap_join, Expr.layouts_mapSpans sizes,
        element.layout_mapSpan]
  | .pack a b | .extraction a b | .arrow a b | .injection a b | .application a b _ => by
      simp [Form.mapSpan, Form.layout, a.layout_mapSpan, b.layout_mapSpan]
  | .sigma tuple none => by
      have label : respan f (none : Option Name) = none := rfl
      simp [Form.mapSpan, Form.layout, tuple.layout_mapSpan, label]
  | .sigma tuple (some name) => by
      have label : respan f (some name) = some (respan f name) := rfl
      simp [Form.mapSpan, Form.layout, tuple.layout_mapSpan, label, Name.layout_respan]
  | .tuple es | .union es => by
      simp [Form.mapSpan, Form.layout, commas, flatMap_join, Expr.layouts_mapSpans es]
  | .match_ e arms => by
      simp [Form.mapSpan, Form.layout, e.layout_mapSpan, flatMap_join, Arm.layouts_mapSpans arms]
  | .where_ body ds => by
      simp [Form.mapSpan, Form.layout, body.layout_mapSpan, Decl.innerLayout_mapSpans ds]

theorem Expr.layouts_mapSpans : ∀ es : List Expr,
    (Expr.layouts (Expr.mapSpans f es)).map (fun l => l.flatMap v.seen) =
      (Expr.layouts es).map fun l => l.flatMap v.seen
  | [] => rfl
  | e :: es => by simp [Expr.mapSpans, Expr.layouts, e.layout_mapSpan, Expr.layouts_mapSpans es]

theorem Expr.layoutAfter_mapSpan {lead : Layout} : ∀ e : Option Expr,
    (Expr.layoutAfter lead (Expr.mapSpan? f e)).flatMap v.seen = (Expr.layoutAfter lead e).flatMap v.seen
  | none => rfl
  | some e => by simp [Expr.mapSpan?, Expr.layoutAfter, e.layout_mapSpan]

theorem Arm.layouts_mapSpans : ∀ arms : List Arm,
    (Arm.layouts (Arm.mapSpans f arms)).map (fun l => l.flatMap v.seen) =
      (Arm.layouts arms).map fun l => l.flatMap v.seen
  | [] => rfl
  | ⟨binder, body, _⟩ :: arms => by
      simp [Arm.mapSpans, Arm.mapSpan, Arm.layouts, binder.layout_mapSpan, body.layout_mapSpan,
        Arm.layouts_mapSpans arms]

theorem Binder.layout_mapSpan :
    ∀ b : Binder, (b.mapSpan f).layout.flatMap v.seen = b.layout.flatMap v.seen
  | .name _ => rfl
  | .typed _ ty _ => by
      simp [Binder.mapSpan, Binder.layout, Ident.layout_respan, ty.layout_mapSpan]
  | .type ty => by simp [Binder.mapSpan, Binder.layout, ty.layout_mapSpan]
  | .group names ty _ => by
      simp [Binder.mapSpan, Binder.layout, Ident.layouts_respan, ty.layout_mapSpan]
  | .tuple _ bs _ => by
      simp [Binder.mapSpan, Binder.layout, commas, flatMap_join, Binder.layouts_mapSpans bs]

theorem Binder.layouts_mapSpans : ∀ bs : List Binder,
    (Binder.layouts (Binder.mapSpans f bs)).map (fun l => l.flatMap v.seen) =
      (Binder.layouts bs).map fun l => l.flatMap v.seen
  | [] => rfl
  | b :: bs => by
      simp [Binder.mapSpans, Binder.layouts, b.layout_mapSpan, Binder.layouts_mapSpans bs]

theorem Binder.layoutEach_mapSpans : ∀ bs : List Binder,
    (Binder.layoutEach (Binder.mapSpans f bs)).flatMap v.seen = (Binder.layoutEach bs).flatMap v.seen
  | [] => rfl
  | b :: bs => by
      simp [Binder.mapSpans, Binder.layoutEach, b.layout_mapSpan, Binder.layoutEach_mapSpans bs]

theorem Decl.layout_mapSpan : ∀ d : Decl, (d.mapSpan f).layout.flatMap v.seen = d.layout.flatMap v.seen
  | ⟨doc, form, _⟩ => by simp [Decl.mapSpan, Decl.layout, v.docs doc, form.layout_mapSpan]

theorem Decl.innerLayout_mapSpans : ∀ ds : List Decl,
    (Decl.innerLayout (Decl.mapSpans f ds)).flatMap v.seen = (Decl.innerLayout ds).flatMap v.seen
  | [] => rfl
  | d :: ds => by
      simp [Decl.mapSpans, Decl.innerLayout, d.layout_mapSpan, Decl.innerLayout_mapSpans ds]

theorem DeclForm.layout_mapSpan :
    ∀ form : DeclForm, (form.mapSpan f).layout.flatMap v.seen = form.layout.flatMap v.seen
  | .axm name ty normalizer curryAndTrip => by
      have options : DeclForm.layout.axmOptions (respan f normalizer) (respan f curryAndTrip) =
          DeclForm.layout.axmOptions normalizer curryAndTrip := by
        cases normalizer <;> rcases curryAndTrip with _ | ⟨_, _ | _⟩ <;> rfl
      simp [DeclForm.mapSpan, DeclForm.layout, Annex.layout_respan, options, ty.layout_mapSpan]
  | .cfun domain ty => by
      simp [DeclForm.mapSpan, DeclForm.layout, domain.layout_mapSpan, ty.layout_mapSpan]
  | .ccon domain => by simp [DeclForm.mapSpan, DeclForm.layout, domain.layout_mapSpan]
  | .letAnnex target value => by
      simp [DeclForm.mapSpan, DeclForm.layout, Annex.layout_respan, value.layout_mapSpan]
  | .let_ target value => by
      simp [DeclForm.mapSpan, DeclForm.layout, target.layout_mapSpan, value.layout_mapSpan]
  | .rec_ bindings lam => by
      simp [DeclForm.mapSpan, DeclForm.layout, flatMap_join, RecBinding.layouts_mapSpans bindings,
        Lam.layoutAfter_mapSpan lam]
  | .lam lam => lam.layout_mapSpan
  | .rule _ binder lhs guard rhs => by
      simp [DeclForm.mapSpan, DeclForm.layout, binder.layout_mapSpan, lhs.layout_mapSpan,
        Expr.layoutAfter_mapSpan guard, rhs.layout_mapSpan]
  | .error => rfl

theorem RecBinding.layouts_mapSpans : ∀ bs : List RecBinding,
    (RecBinding.layouts (RecBinding.mapSpans f bs)).map (fun l => l.flatMap v.seen) =
      (RecBinding.layouts bs).map fun l => l.flatMap v.seen
  | [] => rfl
  | ⟨name, ty, value, _⟩ :: bs => by
      simp [RecBinding.mapSpans, RecBinding.mapSpan, RecBinding.layouts, Name.layout_respan,
        Expr.layoutAfter_mapSpan ty, value.layout_mapSpan, RecBinding.layouts_mapSpans bs]

theorem Lam.layout_mapSpan : ∀ lam : Lam, (lam.mapSpan f).layout.flatMap v.seen = lam.layout.flatMap v.seen
  | ⟨_, _, name, params, codomain, body, _⟩ => by
      simp [Lam.mapSpan, Lam.layout, Name.layout_respan, Param.layoutEach_mapSpans params,
        Expr.layoutAfter_mapSpan codomain, Expr.layoutAfter_mapSpan body]

theorem Lam.layoutAfter_mapSpan {lead : Layout} : ∀ lam : Option Lam,
    (Lam.layoutAfter lead (Lam.mapSpan? f lam)).flatMap v.seen = (Lam.layoutAfter lead lam).flatMap v.seen
  | none => rfl
  | some lam => by simp [Lam.mapSpan?, Lam.layoutAfter, lam.layout_mapSpan]

theorem Param.layoutEach_mapSpans : ∀ ps : List Param,
    (Param.layoutEach (Param.mapSpans f ps)).flatMap v.seen = (Param.layoutEach ps).flatMap v.seen
  | [] => rfl
  | ⟨domain, filter, _⟩ :: ps => by
      simp [Param.mapSpans, Param.mapSpan, Param.layoutEach, domain.layout_mapSpan,
        Expr.layoutAfter_mapSpan filter, Param.layoutEach_mapSpans ps]

end

/-- What is seen of the layout of a file is not changed. -/
theorem File.layout_respan (file : File) :
    (respan f file).layout.flatMap v.seen = file.layout.flatMap v.seen := by
  obtain ⟨deps, ds, place⟩ := file
  have dependencies : (respan f deps).flatMap (fun d => d.layout ++ [.line]) =
      deps.flatMap fun d => d.layout ++ [.line] := List.flatMap_map ..
  have declarations : ((respan f ds).flatMap fun d => d.layout ++ [.sign .semicolon, .line]).flatMap
      v.seen = (ds.flatMap fun d => d.layout ++ [.sign .semicolon, .line]).flatMap v.seen := by
    have same : ∀ d : Decl, (respan f d).layout.flatMap v.seen = _ := fun d => d.layout_mapSpan v
    rw [show respan f ds = ds.map (respan f) from rfl]
    simp [List.flatMap_map, List.flatMap_assoc, same]
  have none : ∀ {β : Type} [Spanned β] (bs : List β), (respan f bs).isEmpty = bs.isEmpty :=
    fun _ => List.isEmpty_map
  have parts : respan f (File.mk deps ds place) = ⟨respan f deps, respan f ds, f place⟩ := rfl
  simp only [parts, File.layout, List.flatMap_append, dependencies, declarations, none]

end Seen

end Mim
