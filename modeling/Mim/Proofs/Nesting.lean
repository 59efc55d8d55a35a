import Mim.Proofs.Covers.Grammar
import Mim.Proofs.Files
import Mim.Proofs.Lexing
import Mim.Source

/-! # Spans are nested

The nodes of the tree of a text stand inside each other as the text does: from the start of
a token to the end of a token, one after the other.
-/

namespace Mim

open Grammar

namespace Node

/-- The nodes directly inside a node are inside its span, one after the other, none of them
    empty. -/
structure Nests (n : Node) : Prop where
  tidy : Tidy Node.span n.children
  inside : ∀ c ∈ n.children, n.span.start ≤ c.span.start ∧ c.span.stop ≤ n.span.stop

/-- A node that starts where a token does and ends where a token does. -/
def IsBounded (places : List Span) (n : Node) : Prop :=
  (∃ place ∈ places, n.span.start = place.start) ∧ ∃ place ∈ places, n.span.stop = place.stop

theorem IsBounded.mono {places places' : List Span} {n : Node} (h : n.IsBounded places)
    (hs : places ⊆ places') : n.IsBounded places' :=
  have ⟨⟨p, hp, start⟩, q, hq, stop⟩ := h
  ⟨⟨p, hs hp, start⟩, q, hs hq, stop⟩

end Node

/-- A span over items starts no later than any of them and ends no earlier. -/
theorem Span.Over.bounds {place : Span} {cs : List Item} (across : place.Over cs)
    (hc : Tidy Item.span cs) : ∀ i ∈ cs, place.start ≤ i.span.start ∧ i.span.stop ≤ place.stop := by
  obtain ⟨i, j, hi, hj, start, stop⟩ := across
  have long := (hc.start_le_stop hi (List.mem_of_getLast? hj)).2
  intro k hk
  rw [start, stop (Nat.le_of_lt long)]
  exact ⟨(hc.start_le_stop hi hk).1, hc.stop_le_last hk hj⟩

theorem Span.Over.isBounded {n : Node} {cs : List Item} (across : n.span.Over cs)
    (hc : Tidy Item.span cs) :
    n.span.start < n.span.stop ∧ n.IsBounded (cs.map Item.span) := by
  obtain ⟨i, j, hi, hj, start, stop⟩ := across
  have long := (hc.start_le_stop hi (List.mem_of_getLast? hj)).2
  have stop := stop (Nat.le_of_lt long)
  refine ⟨by rwa [start, stop], ⟨i.span, ?_, start⟩, j.span, ?_, stop⟩
  · exact List.mem_map_of_mem (List.mem_of_head? hi)
  · exact List.mem_map_of_mem (List.mem_of_getLast? hj)

namespace Covers

variable {s s' : Reading} {cs : List Item} {ns : List Node}

/-- Nodes that cover items stand one after the other, as the items do. -/
theorem tidy (h : Covers s s' cs ns) (hc : Tidy Item.span cs) :
    Tidy Node.span ns ∧ ∀ n ∈ ns, n.IsBounded (cs.map Item.span) := by
  induction h with
  | nil => exact ⟨⟨by simp, .nil⟩, by simp⟩
  | skip _ ih =>
      obtain ⟨tidy, bounded⟩ := ih (hc.sublist (List.sublist_cons_self _ _))
      exact ⟨tidy, fun n hn => (bounded n hn).mono (List.subset_cons_self _ _)⟩
  | @node n cs ds ns across _ _ _ _ ih =>
      have left := hc.sublist (List.sublist_append_left cs ds)
      obtain ⟨tidy, bounded⟩ := ih (hc.sublist (List.sublist_append_right cs ds))
      obtain ⟨filled, first⟩ := across.isBounded left
      have apart : ∀ m ∈ ns, n.span.stop ≤ m.span.start := by
        intro m hm
        obtain ⟨⟨_, hp, start⟩, -⟩ := bounded m hm
        obtain ⟨k, hk, rfl⟩ := List.mem_map.1 hp
        obtain ⟨-, _, hq, stop⟩ := first
        obtain ⟨j, hj, rfl⟩ := List.mem_map.1 hq
        rw [start, stop]
        exact (List.pairwise_append.1 hc.ordered).2.2 j hj k hk
      rw [List.map_append]
      refine ⟨⟨List.forall_mem_cons.2 ⟨filled, tidy.filled⟩, tidy.ordered.cons apart⟩, ?_⟩
      exact List.forall_mem_cons.2 ⟨first.mono (List.subset_append_left _ _),
        fun m hm => (bounded m hm).mono (List.subset_append_right _ _)⟩

/-- A node over the items that its parts cover. -/
theorem nests {n : Node} (h : Covers s s' cs n.children) (across : n.span.Over cs)
    (hc : Tidy Item.span cs) : n.Nests := by
  obtain ⟨tidy, bounded⟩ := h.tidy hc
  refine ⟨tidy, fun c hn => ?_⟩
  obtain ⟨⟨_, hp, start⟩, _, hq, stop⟩ := bounded c hn
  obtain ⟨i, hi, rfl⟩ := List.mem_map.1 hp
  obtain ⟨j, hj, rfl⟩ := List.mem_map.1 hq
  rw [start, stop]
  exact ⟨(across.bounds hc i hi).1, (across.bounds hc j hj).2⟩

/-- Without items there are no nodes. -/
theorem eq_nil (h : Covers s s' [] ns) : ns = [] := by
  have bounded := (h.tidy ⟨by simp, .nil⟩).2
  refine List.eq_nil_iff_forall_not_mem.2 fun n hn => ?_
  obtain ⟨⟨_, hp, -⟩, -⟩ := bounded n hn
  cases hp

/-- All nodes that cover items are nested. -/
theorem nested (h : Covers s s' cs ns) (hc : Tidy Item.span cs) :
    ∀ n ∈ Node.allEach ns, n.Nests ∧ n.IsBounded (cs.map Item.span) := by
  induction h with
  | nil => simp [Node.allEach]
  | skip _ ih =>
      intro n hn
      obtain ⟨nests, bounded⟩ := ih (hc.sublist (List.sublist_cons_self _ _)) n hn
      exact ⟨nests, bounded.mono (List.subset_cons_self _ _)⟩
  | @node n cs ds ns across _ inside _ ih ih' =>
      have left := hc.sublist (List.sublist_append_left cs ds)
      rw [Node.allEach, Node.all_eq, List.map_append]
      intro m hm
      rcases List.mem_append.1 hm with hm | hm
      · rcases List.mem_cons.1 hm with rfl | hm
        · exact ⟨inside.nests across left, (across.isBounded left).2.mono (List.subset_append_left _ _)⟩
        · obtain ⟨nests, bounded⟩ := ih left m hm
          exact ⟨nests, bounded.mono (List.subset_append_left _ _)⟩
      · obtain ⟨nests, bounded⟩ := ih' (hc.sublist (List.sublist_append_right cs ds)) m hm
        exact ⟨nests, bounded.mono (List.subset_append_right _ _)⟩

end Covers

namespace Reading

variable {s : Reading}

/-- The nodes of a file lie over all that is read, and its span does if there is anything. -/
theorem file_covers (items : List Item) :
    Covers (start items) (start items).file.2 items (start items).file.1.node.children ∧
      (items ≠ [] → (start items).file.1.node.span.Over items) ∧
      (items = [] → (start items).file.1.node.span = Span.zero) := by
  obtain ⟨f, s', run, rest⟩ := file_read (g := (start items).nested) nests_self (start items)
  obtain ⟨place, cs, after, covers, -⟩ := file_lays (lays_upTo _) run
  obtain rfl : items = cs := by simpa [start, rest] using after.rest
  rw [file_eq run]
  refine ⟨covers, fun ne => ?_, fun nil => ?_⟩
  · rw [show f.node.span = _ from place]
    exact after.spanFrom_over ne
  · have lastEnd : s'.lastEnd = 0 := by
      rw [after.lastEnd, nil]
      rfl
    rw [show f.node.span = _ from place, nil, spanFrom, lastEnd]
    rfl

end Reading

/-- In the tree of any text, the parts of each node are inside it, one after the other and
    none of them empty, and each node starts where a token does that is no doc comment, and
    ends where one does. Only a text without such tokens has a tree with the empty span. -/
theorem spans_are_nested (text : String) :
    ∀ n ∈ (Source.ofText text).file.node.all, n.Nests ∧
      (n.IsBounded ((Lexeme.solid (lexemes text)).map Lexeme.span) ∨
        Lexeme.solid (lexemes text) = [] ∧ n = (Source.ofText text).file.node ∧
          n.span = Span.zero) := by
  have places := Item.map_ofLexemesAfter (fun _ place => place) (lexemes text) []
  change (Item.ofLexemes (lexemes text)).map Item.span = _ at places
  have tidy : Tidy Item.span (Item.ofLexemes (lexemes text)) :=
    Item.ofLexemes_tidy Place.first text.toList
  obtain ⟨covers, across, empty⟩ := Reading.file_covers (Item.ofLexemes (lexemes text))
  have inner := covers.nested tidy
  rw [← places]
  change ∀ n ∈ (Reading.start (Item.ofLexemes (lexemes text))).file.1.node.all, _
  intro n hn
  rw [Node.all_eq] at hn
  rcases List.mem_cons.1 hn with rfl | hn
  · by_cases ne : Item.ofLexemes (lexemes text) = []
    · rw [ne] at covers
      refine ⟨⟨?_, ?_⟩, .inr ⟨?_, rfl, empty ne⟩⟩
      · rw [ne, covers.eq_nil]
        exact ⟨by simp, .nil⟩
      · rw [ne, covers.eq_nil]
        exact fun c hc => nomatch hc
      · rw [ne] at places
        exact List.map_eq_nil_iff.1 places.symm
    · exact ⟨covers.nests (across ne) tidy, .inl ((across ne).isBounded tidy).2⟩
  · exact ⟨(inner n hn).1, .inl (inner n hn).2⟩

/-- The placeholder of a declaration that breaks off inside a `where`. -/
theorem spans_are_nested_placeholder :
    let source := Source.ofText "let x = y where let = 1; end; | let z"
    source.hasErrors = true ∧ ∃ n ∈ source.file.node.all, n.span = ⟨16, 24⟩ ∧ n.Nests ∧
      (n.IsBounded ((Lexeme.solid (lexemes "let x = y where let = 1; end; | let z")).map Lexeme.span) ∨
        Lexeme.solid (lexemes "let x = y where let = 1; end; | let z") = [] ∧
          n = source.file.node ∧ n.span = Span.zero) := by
  intro source
  refine ⟨by decide +kernel, ?_⟩
  obtain ⟨n, hn, place⟩ : ∃ n ∈ source.file.node.all, n.span = ⟨16, 24⟩ := by decide +kernel
  exact ⟨n, hn, place, spans_are_nested _ n hn⟩

end Mim
