import Mim.Proofs.Shifted
import Mim.Proofs.Spells.Files

/-! # Errors stay where they are

A text that follows a complete one is read as it is by itself. Whatever is wrong in it, the
text in front of it is read as before, and nothing more is reported.
-/

namespace Mim

open Grammar Token
open Nested (full)

/-- The lexemes of a text end where the text does, or earlier. -/
theorem lexemesFrom_stop_le (place : Place) (cs : List Char) :
    ∀ x ∈ lexemesFrom place cs, x.span.stop ≤ place.offset + String.utf8Len cs := by
  induction cs using Scan.induction generalizing place with
  | nil => simp
  | cons c cs ih =>
      have whole := congrArg String.utf8Len (List.take_append_drop (Scan.first c cs).more cs)
      rw [String.utf8Len_append] at whole
      rw [lexemesFrom_cons]
      intro x hx
      rcases List.mem_append.1 hx with hx | hx
      · obtain ⟨token, -, rfl⟩ := Option.map_eq_some_iff.1 (Option.mem_toList.1 hx)
        simp only [Place.offset_after, String.utf8Len_cons]
        omega
      · have stop := ih _ x hx
        simp only [Place.offset_after, String.utf8Len_cons] at stop ⊢
        omega

/-- The lexemes of two texts on lines of their own. -/
theorem lexemes_lines {a : String} (clean : Lexeme.AreClean (lexemes a)) (b : String) :
    ∃ ys, lexemes (a ++ "\n" ++ b) = lexemes a ++ ys ∧
      Lexeme.Shifted (a.utf8ByteSize + 1) (lexemes b) ys := by
  have size : a.utf8ByteSize = String.utf8Len a.toList := by
    rw [← String.utf8ByteSize_ofList, String.ofList_toList]
  refine ⟨_, ?_, lexemesFrom_shifted (q := (Place.first.after a.toList).advance '\n') ?_ b.toList⟩
  · rw [← show lexemesFrom Place.first a.toList = lexemes a from rfl, ← lexemesFrom_newline _ _ _ clean]
    simp [lexemes]
  · rw [size]
    simp only [Place.advance, Place.offset_after, Nat.add_assoc]
    rfl

namespace Reading

variable {as bs : List Item} {n : Nat}

/-- Where no dependency comes first, there are declarations only. -/
theorem declarations_start (h : (bs.head?.map Item.token).any startsDependency = false) :
    (start bs).file.1.dependencies = [] ∧
      declarations full (start bs) = .ok (start bs).file.1.declarations (start bs).file.2 := by
  have run := (start bs).fileParts_ok.2.2
  have none : dependencies (start bs) = .ok [] (start bs) := by
    refine bind_ok.2 ⟨[], start bs, (many_ok dependency?_advances).2 (.stop ?_), rfl⟩
    rw [dependency?_run, startsDependency_look, if_neg]
    · rfl
    · rw [show (start bs).token? = bs.head?.map Item.token from rfl, h]
      exact Bool.false_ne_true
  obtain ⟨ds, s', late, done⟩ := bind_ok.1 (show (declarations full >>= fun ds => pure ([], ds))
    (start bs) = .ok _ _ by rw [← run]; unfold fileParts; rw [bind_of_ok none])
  obtain ⟨eq, rfl⟩ := pure_ok.1 done
  obtain ⟨deps, rfl⟩ := Prod.mk.inj eq
  exact ⟨deps.symm, late⟩

/-- What is read from items further on. -/
theorem declarations_further {u : Reading} (hu : u.rest = respan (Change.further n true) bs)
    (short : u.lastEnd ≤ n) (h : (bs.head?.map Item.token).any startsDependency = false) :
    ∃ u', declarations full u = .ok (respan (Change.further n true) (start bs).file.1.declarations) u' ∧
      u'.recorded.filter Diagnostic.isError =
        respan (Change.further n true) ((start bs).file.2.recorded.filter Diagnostic.isError) ++
          u.recorded.filter Diagnostic.isError := by
  have late := (declarations_start h).2
  cases bs with
  | nil =>
      rw [declarations_end (u := start []) rfl] at late
      obtain ⟨ds, s'⟩ := EStateM.Result.ok.inj late
      rw [← ds, ← s']
      exact ⟨u, declarations_end hu, rfl⟩
  | cons i bs =>
      have rel : (Simulation.shifted n true (u.recorded.filter Diagnostic.isError)).rel
          (start (i :: bs)) u := ⟨⟨hu, rfl⟩, .inr ⟨rfl, short, by simp [start]⟩⟩
      have agree := declarations_inStep (m := (i :: bs).length) Nested.nests_full_self (start (i :: bs)) u rel
        trivial (Nat.lt_succ_self _)
      rw [late] at agree
      cases run : declarations full u with
      | error e u' =>
          rw [run] at agree
          exact agree.elim
      | ok ds u' =>
          rw [run] at agree
          obtain ⟨rfl, moved, -⟩ := agree
          exact ⟨u', rfl, moved.errors⟩

/-- Items that go on with others are read as they are without them, and the others too. -/
theorem file_append (tokens : ∀ i ∈ as, ∀ reason, i.token ≠ .error reason)
    (recorded : (start as).file.2.recorded.filter Diagnostic.isError = [])
    (joins : Mode.exact.Joins as (respan (Change.further n true) bs))
    (short : (start as).file.2.lastEnd ≤ n)
    (h : (bs.head?.map Item.token).any startsDependency = false) :
    let joined := (start (as ++ respan (Change.further n true) bs)).file
    joined.1.dependencies = (start as).file.1.dependencies ∧
      joined.1.declarations = (start as).file.1.declarations ++
        respan (Change.further n true) (start bs).file.1.declarations ∧
      joined.2.recorded.filter Diagnostic.isError =
        respan (Change.further n true) ((start bs).file.2.recorded.filter Diagnostic.isError) := by
  have clean : Clean (start as) (start as).file.2 := ⟨tokens, fun d hd => by
    simpa using List.filter_eq_nil_iff.1 recorded d hd⟩
  have head : ((respan (Change.further n true) bs).head?.map Item.token).any startsDependency = false := by
    rw [← h]
    cases bs <;> rfl
  obtain ⟨-, -, reads⟩ := fileParts_spell (m := .exact) (Nested.spelled_upTo _) (lays_upTo _)
    (start as).fileParts_ok.2.1 clean
  obtain ⟨deps, ds, u, run, same, sames, hu, ends, errors⟩ := reads trivial
    (u := start (as ++ respan (Change.further n true) bs)) rfl rfl joins head rfl
  have lastEnd : u.lastEnd = (start as).file.2.lastEnd := congrArg Span.start ends
  obtain ⟨u', late, errors'⟩ := declarations_further hu (by rw [lastEnd]; exact short) h
  rw [bind_of_ok late, (start _).fileParts_ok.2.2] at run
  obtain ⟨parts, hu'⟩ := EStateM.Result.ok.inj run
  obtain ⟨deps_eq, ds_eq⟩ := Prod.mk.inj parts
  have eq : ∀ {α : Type} [Spanned α] {a b : α}, Mode.exact.Same a b → b = a := by
    intro α _ a b same
    rw [← Spanned.respan_id a, ← Spanned.respan_id b]
    exact same
  refine ⟨deps_eq.trans (eq same), ds_eq.trans (by rw [eq sames]), ?_⟩
  rw [hu', errors', errors]
  exact List.append_nil _

end Reading

theorem Lexeme.Shifted.errors {n : Nat} {xs ys : List Lexeme} (h : Shifted n xs ys) :
    ys.flatMap Lexeme.errors = respan (Change.further n true) (xs.flatMap Lexeme.errors) := by
  induction xs generalizing ys with
  | nil =>
      obtain rfl := List.map_eq_nil_iff.1 h
      rfl
  | cons x xs ih =>
      obtain ⟨y, ys, rfl, hy, hys⟩ := List.map_eq_cons_iff.1 h
      have token : y.token = x.token := congrArg Prod.fst hy
      have place : y.span = x.span.shift n := congrArg Prod.snd hy
      rw [List.flatMap_cons, List.flatMap_cons, ih hys]
      change _ = List.map _ _
      rw [List.map_append]
      refine congrArg (· ++ _) ?_
      unfold Lexeme.errors
      rw [token, place]
      split <;> rfl

/-- The last token of a text without a doc comment at its end. -/
theorem Lexeme.getLast?_solid {xs : List Lexeme} (h : ∀ x ∈ xs.getLast?, x.token.isDoc = false) :
    (solid xs).getLast? = xs.getLast? := by
  cases hx : xs.getLast? with
  | none =>
      rw [List.getLast?_eq_none_iff.1 hx]
      rfl
  | some x =>
      obtain ⟨init, rfl⟩ := List.getLast?_eq_some_iff.1 hx
      simp [solid, h x hx]

/-- The last of the tokens of a text ends where the text does, or earlier. -/
theorem Reading.lastEnd_file_le (text : String) :
    (Source.reading text).file.2.lastEnd ≤ text.utf8ByteSize := by
  rw [(Source.reading text).file_after.lastEnd]
  cases last : (Source.reading text).rest.getLast? with
  | none =>
      rw [List.getLast?_eq_none_iff.1 last]
      exact Nat.zero_le _
  | some i =>
      obtain ⟨x, hx, -, -, place⟩ := Item.exists_lexeme (List.mem_of_getLast? last)
      have stop := lexemesFrom_stop_le Place.first text.toList x hx
      rw [Item.endAfter_of_getLast? last, ← place]
      rwa [← String.utf8ByteSize_ofList, String.ofList_toList, Place.first, Nat.zero_add] at stop

/-- A text that is put on a line of its own behind a complete one is read as it is by itself,
    and the text in front of it too, whatever is wrong in the text behind. The first must end
    in a semicolon, or the second begin with a declaration. -/
theorem lines_are_read_apart (a b : String) (complete : (Source.ofText a).hasErrors = false)
    (undocumented : ∀ x ∈ (lexemes a).getLast?, x.token.isDoc = false)
    (independent : ∀ x ∈ lexemes b, x.token ≠ .keyword .import_ ∧ x.token ≠ .keyword .plugin)
    (apart : (∃ x ∈ (lexemes a).getLast?, x.token = .symbol .semicolon) ∨
      ∃ x ∈ (Lexeme.solid (lexemes b)).head?, x.token.startsDeclaration) :
    (Source.ofText (a ++ "\n" ++ b)).file.dependencies = (Source.ofText a).file.dependencies ∧
      (Source.ofText (a ++ "\n" ++ b)).file.declarations = (Source.ofText a).file.declarations ++
        respan (Change.shift (a.utf8ByteSize + 1)) (Source.ofText b).file.declarations ∧
      (Source.ofText (a ++ "\n" ++ b)).errors =
        respan (Change.shift (a.utf8ByteSize + 1)) (Source.ofText b).errors := by
  obtain ⟨clean, recorded⟩ := Source.errors_eq_nil.1 (Source.hasErrors_eq_false.1 complete)
  obtain ⟨ys, whole, further⟩ := lexemes_lines clean b
  have items : Item.ofLexemes (lexemes (a ++ "\n" ++ b)) = Item.ofLexemes (lexemes a) ++
      respan (Change.further (a.utf8ByteSize + 1) true) (Item.ofLexemes (lexemes b)) := by
    rw [whole, Item.ofLexemes_append undocumented]
    exact congrArg _ (Item.ofLexemes_shifted further [])
  have tokens : ∀ text, (Item.ofLexemes (lexemes text)).map Item.token =
      (Lexeme.solid (lexemes text)).map Lexeme.token := fun text =>
    Item.map_ofLexemesAfter (fun token _ => token) (lexemes text) []
  have joins : Mode.exact.Joins (Item.ofLexemes (lexemes a))
      (respan (Change.further (a.utf8ByteSize + 1) true) (Item.ofLexemes (lexemes b))) := by
    intro i hi
    rcases apart with ⟨x, hx, semicolon⟩ | ⟨x, hx, declares⟩
    · have last := congrArg List.getLast? (tokens a)
      rw [List.getLast?_map, List.getLast?_map, Lexeme.getLast?_solid undocumented, hi, hx] at last
      exact .inl ((Option.some.inj last).trans semicolon)
    · have head := congrArg List.head? (tokens b)
      rw [List.head?_map, List.head?_map, hx] at head
      obtain ⟨j, hj, token⟩ := Option.map_eq_some_iff.1 head
      refine .inr (.inr ?_)
      change (((Item.ofLexemes (lexemes b)).map (respan _)).head?.map Item.token).any startsDeclaration
      rw [List.head?_map, hj]
      change j.token.startsDeclaration
      rwa [token]
  have short := Nat.le_succ_of_le (Reading.lastEnd_file_le a)
  have head : ((Item.ofLexemes (lexemes b)).head?.map Item.token).any startsDependency = false := by
    cases hb : (Item.ofLexemes (lexemes b)).head? with
    | none => rfl
    | some i =>
        obtain ⟨x, hx, -, token, -⟩ := Item.exists_lexeme (List.mem_of_head? hb)
        have other := independent x hx
        rw [token] at other
        change startsDependency i.token = false
        unfold startsDependency
        split
        · next h => exact absurd h other.1
        · next h => exact absurd h other.2
        · rfl
  have clean_items : ∀ i ∈ Item.ofLexemes (lexemes a), ∀ reason, i.token ≠ .error reason := by
    intro i hi reason broken
    obtain ⟨x, hx, -, token, -⟩ := Item.exists_lexeme hi
    exact clean x hx reason (token.trans broken)
  obtain ⟨deps, ds, errors⟩ := Reading.file_append clean_items recorded joins short head
  rw [← items] at deps ds errors
  refine ⟨deps, ds, ?_⟩
  have order : ∀ ds : List Diagnostic, Diagnostic.sort (respan (Change.shift (a.utf8ByteSize + 1)) ds) =
      respan (Change.shift (a.utf8ByteSize + 1)) (Diagnostic.sort ds) := fun ds =>
    Diagnostic.sort_further _ (fun _ _ => Nat.add_le_add_iff_right) ds
  have reported : (Source.reading (a ++ "\n" ++ b)).file.2.recorded.filter Diagnostic.isError =
      respan (Change.shift (a.utf8ByteSize + 1))
        ((Source.reading b).file.2.recorded.filter Diagnostic.isError) := errors
  have broken : (lexemes (a ++ "\n" ++ b)).flatMap Lexeme.errors =
      respan (Change.shift (a.utf8ByteSize + 1)) ((lexemes b).flatMap Lexeme.errors) := by
    rw [whole, List.flatMap_append, clean.errors, List.nil_append, further.errors]
    rfl
  rw [Source.errors_ofText, Source.errors_ofText, broken, reported, ← order]
  change Diagnostic.sort (List.map _ _ ++ Diagnostic.sort (List.map _ _).reverse) =
    Diagnostic.sort (List.map _ _)
  rw [List.map_append, ← List.map_reverse]
  exact congrArg (fun ds => Diagnostic.sort (_ ++ ds)) (order _)

/-- A declaration that is never finished does not disturb the one in front of it. -/
theorem lines_are_read_apart_broken :
    (Source.ofText ("let x = y" ++ "\n" ++ "let z = |")).file.dependencies =
        (Source.ofText "let x = y").file.dependencies ∧
      (Source.ofText ("let x = y" ++ "\n" ++ "let z = |")).file.declarations =
        (Source.ofText "let x = y").file.declarations ++
          respan (Change.shift ("let x = y".utf8ByteSize + 1)) (Source.ofText "let z = |").file.declarations ∧
      (Source.ofText ("let x = y" ++ "\n" ++ "let z = |")).errors =
        respan (Change.shift ("let x = y".utf8ByteSize + 1)) (Source.ofText "let z = |").errors :=
  lines_are_read_apart "let x = y" "let z = |" (by decide +kernel) (by decide +kernel) (by decide +kernel)
    (.inr ⟨⟨.keyword .let_, ⟨1, 1⟩, ⟨0, 3⟩, false⟩, by decide +kernel, rfl⟩)

end Mim
