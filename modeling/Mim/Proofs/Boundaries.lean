import Mathlib.Data.Nat.Init
import Mathlib.Order.Bounds.Defs
import Mim.Proofs.Forward

/-! # Recovery ends at the first boundary

Wherever a reading of some items has got to, it is told by a cursor, the number of items that
have been read, and by what has been recorded. Recovery moves the cursor to the first place
where something may begin again, and no further.
-/

namespace Mim

variable {items : List Item} {recorded : List Diagnostic} {inWhere : Bool} {cursor first i : Nat}

/-- The reading of some items when the first `cursor` of them have been read. -/
def Reading.atCursor (items : List Item) (cursor : Nat) (recorded : List Diagnostic) : Reading :=
  ⟨items.drop cursor, Item.endAfter 0 (items.take cursor), recorded⟩

namespace Item

/-- Items whose spans are in increasing order. -/
structure Ascending (items : List Item) : Prop where
  filled : ∀ i ∈ items, i.span.start ≤ i.span.stop
  ordered : items.Pairwise fun i j => i.span.start ≤ j.span.start

theorem ascending_of_tidy (h : Tidy Item.span items) : Ascending items where
  filled i hi := Nat.le_of_lt (h.filled i hi)
  ordered := h.ordered.imp_of_mem fun hi _ apart => Nat.le_trans (Nat.le_of_lt (h.filled _ hi)) apart

theorem Ascending.start_le_stop (h : Ascending items) {m n : Nat} (le : m ≤ n)
    (hn : n < items.length) : items[m].span.start ≤ items[n].span.stop := by
  have last : items[n].span.start ≤ items[n].span.stop := h.filled _ (List.getElem_mem hn)
  rcases Nat.eq_or_lt_of_le le with rfl | lt
  · exact last
  · exact Nat.le_trans (List.pairwise_iff_getElem.1 h.ordered m n (by omega) hn lt) last

/-- Recovery that goes on from the cursor `first` may end at the cursor `i`. -/
inductive Stops (inWhere : Bool) (items : List Item) (first i : Nat) : Prop where
  /-- Nothing is left. -/
  | finish (all : i = items.length)
  /-- The next item begins something, or is the end of the `where` that is recovered in. -/
  | ahead {item : Item} (next : items[i]? = some item)
    (begins : item.token.startsDeclaration ∨ item.token = .keyword .import_ ∨
      item.token = .keyword .plugin ∨ inWhere ∧ item.token = .keyword .end_)
  /-- A semicolon has just been passed over. -/
  | behind {item : Item} (passed : first < i) (last : items[i - 1]? = some item)
    (semicolon : item.token = .symbol .semicolon)

end Item

/-- The tokens that recovery ends in front of. -/
theorem Token.isBoundary_iff {t : Token} : t.isBoundary inWhere ↔ t.startsDeclaration ∨
    t = .keyword .import_ ∨ t = .keyword .plugin ∨ inWhere ∧ t = .keyword .end_ := by
  unfold isBoundary
  split <;> simp_all [startsDeclaration, Keyword.startsDeclaration]

namespace Item.Stops

variable {item : Item}

/-- Recovery does not end where it begins, unless at a boundary. -/
theorem lt_of_le (next : items[first]? = some item) (apart : ¬ item.token.isBoundary inWhere)
    (le : first ≤ i) (h : Stops inWhere items first i) : first < i := by
  apply Nat.lt_of_le_of_ne le
  rintro rfl
  cases h with
  | finish all =>
      have inside := (List.getElem?_eq_some_iff.1 next).1
      omega
  | ahead next' begins =>
      obtain rfl := Option.some.inj (next.symm.trans next')
      exact apart (Token.isBoundary_iff.2 begins)
  | behind passed => exact Nat.lt_irrefl _ passed

/-- An item that recovery passes over may as well have been read before. -/
theorem passed_iff (next : items[first]? = some item) (apart : ¬ item.token.isBoundary inWhere)
    (inside : item.token ≠ .symbol .semicolon) :
    first ≤ i ∧ Stops inWhere items first i ↔ first + 1 ≤ i ∧ Stops inWhere items (first + 1) i := by
  constructor
  · rintro ⟨le, h⟩
    have lt := h.lt_of_le next apart le
    refine ⟨lt, ?_⟩
    cases h with
    | finish all => exact .finish all
    | ahead next' begins => exact .ahead next' begins
    | behind _ last semicolon =>
        refine .behind (Nat.lt_of_le_of_ne lt ?_) last semicolon
        rintro rfl
        obtain rfl := Option.some.inj (next.symm.trans last)
        exact inside semicolon
  · rintro ⟨lt, h⟩
    refine ⟨Nat.le_of_lt lt, ?_⟩
    cases h with
    | finish all => exact .finish all
    | ahead next' begins => exact .ahead next' begins
    | behind _ last semicolon => exact .behind lt last semicolon

end Item.Stops

namespace Reading

theorem token?_atCursor : (atCursor items cursor recorded).token? = items[cursor]?.map Item.token := by
  rw [token?, atCursor, List.head?_drop]

theorem advance_atCursor (h : cursor < items.length) :
    (atCursor items cursor recorded).advance = atCursor items (cursor + 1) recorded := by
  have rest : (atCursor items cursor recorded).rest = items[cursor] :: items.drop (cursor + 1) :=
    List.drop_eq_getElem_cons h
  rw [advance_eq rest, atCursor, atCursor, List.take_succ_eq_append_getElem h, Item.endAfter_append]
  rfl

theorem span_atCursor (h : cursor < items.length) :
    (atCursor items cursor recorded).span = items[cursor].span := by
  rw [span, atCursor, List.drop_eq_getElem_cons h]

theorem lastEnd_atCursor (positive : 0 < cursor) (h : cursor ≤ items.length) :
    (atCursor items cursor recorded).lastEnd = items[cursor - 1].span.stop := by
  apply Item.endAfter_of_getLast?
  rw [List.getLast?_take, if_neg (by omega), List.getElem?_eq_getElem (by omega)]
  rfl

theorem length_rest_atCursor :
    (atCursor items cursor recorded).rest.length = items.length - cursor := List.length_drop

/-- Having read some items is being at the cursor behind them. -/
theorem After.eq_atCursor {read : List Item} {s : Reading} (h : (start items).After read s) :
    s = atCursor items read.length s.recorded := by
  have lastEnd : s.lastEnd = Item.endAfter 0 read := h.lastEnd
  obtain rfl : items = read ++ s.rest := h.rest
  rw [atCursor, List.drop_left, List.take_left, ← lastEnd]

/-- A move reads an item or none. -/
theorem Move.after {s s' : Reading} (h : s.Move s') : ∃ read, s.After read s' := by
  cases h with
  | advance =>
      cases hs : s.rest with
      | nil => exact ⟨[], by rw [advance_end hs]; exact .refl s⟩
      | cons i rest => exact ⟨[i], .advance hs⟩
  | note rule place => exact ⟨[], .note rule place⟩
  | report e => exact ⟨[], .report e⟩

/-- Wherever moves lead to from the start of some items, it is at a cursor among them. -/
theorem Leads.exists_cursor {s : Reading} (h : (start items).Leads s) :
    ∃ cursor ≤ items.length, s = atCursor items cursor s.recorded := by
  obtain ⟨read, after⟩ : ∃ read, (start items).After read s := by
    induction h with
    | refl => exact ⟨[], .refl _⟩
    | tail _ last ih =>
        obtain ⟨read, after⟩ := ih
        obtain ⟨more, step⟩ := last.after
        exact ⟨read ++ more, after.trans step⟩
  have all : items = read ++ s.rest := after.rest
  have within : read.length ≤ items.length := by
    rw [all, List.length_append]
    exact Nat.le_add_right ..
  exact ⟨read.length, within, after.eq_atCursor⟩

/-- From a cursor on, all is passed over up to the first place where recovery may end. -/
theorem skip_atCursor (inWhere : Bool) (recorded : List Diagnostic) (h : cursor ≤ items.length) :
    ∃ next, (atCursor items cursor recorded).skip inWhere = atCursor items next recorded ∧
      IsLeast {i | cursor ≤ i ∧ Item.Stops inWhere items cursor i} next := by
  -- down from the end: an item is stopped at, or it is passed over and the rest is known
  induction h using Nat.decreasingInduction with
  | self =>
      refine ⟨items.length, skip_of_none ?_, ⟨Nat.le_refl _, .finish rfl⟩, fun i hi => hi.1⟩
      rw [token?_atCursor, List.getElem?_length]
      rfl
  | of_succ cursor lt ih =>
      have here : items[cursor]? = some items[cursor] := List.getElem?_eq_getElem lt
      have next : (atCursor items cursor recorded).token? = some items[cursor].token := by
        rw [token?_atCursor, here]
        rfl
      rw [skip_of_some next]
      split
      · next semicolon =>
          have apart : ¬ items[cursor].token.isBoundary inWhere := by
            rw [semicolon]
            exact Bool.false_ne_true
          refine ⟨cursor + 1, advance_atCursor lt, ⟨Nat.le_succ _, ?_⟩, fun i hi => ?_⟩
          · exact .behind (Nat.lt_succ_self _) here semicolon
          · exact hi.2.lt_of_le here apart hi.1
      · next inside =>
          split
          · next boundary =>
              refine ⟨cursor, rfl, ⟨Nat.le_refl _, ?_⟩, fun i hi => hi.1⟩
              exact .ahead here (Token.isBoundary_iff.1 boundary)
          · next apart =>
              obtain ⟨next, skip, least⟩ := ih
              refine ⟨next, by rw [advance_atCursor lt, skip], ?_⟩
              simpa only [Item.Stops.passed_iff here apart inside] using least

/-- Recovery passes over an item at least. -/
theorem recover_atCursor {start : Nat} {earlier : List Diagnostic} (inside : start < items.length)
    (within : cursor ≤ items.length) :
    (atCursor items cursor recorded).recover inWhere (atCursor items start earlier) =
      let first := if cursor = start then start + 1 else cursor
      let s := (atCursor items first recorded).skip inWhere
      (s.spanFrom items[start].span.start, s) := by
  rw [recover_eq, length_rest_atCursor, length_rest_atCursor, span_atCursor inside]
  by_cases same : cursor = start
  · subst same
    rw [if_pos rfl, if_pos rfl, advance_atCursor inside]
  · rw [if_neg (by omega), if_neg same]

end Reading

open Reading (atCursor)

/-- After a failure of what began at the cursor `start`, recovery goes on from where it failed,
    or from the item behind `start` if nothing has been read. From there it moves to the first
    cursor where all items have been read, where a declaration, a dependency or, in a `where`,
    its end comes next, or where a semicolon has just been passed over. Nothing but the cursor
    changes, and the span that is given goes from the item at `start` to the last item in front
    of the new cursor. -/
theorem recovery_ends_at_first_boundary (inWhere : Bool) (items : List Item)
    (recorded earlier : List Diagnostic) {start cursor : Nat} (inside : start < items.length)
    (reached : start ≤ cursor) (within : cursor ≤ items.length) :
    let first := if cursor = start then start + 1 else cursor
    let recovered := (atCursor items cursor recorded).recover inWhere (atCursor items start earlier)
    ∃ (next : Nat) (_ : start < next) (_ : next ≤ items.length),
      IsLeast {i | first ≤ i ∧ Item.Stops inWhere items first i} next ∧
      recovered.2 = atCursor items next recorded ∧
      (Item.Ascending items →
        recovered.1 = ⟨items[start].span.start, items[next - 1].span.stop⟩) := by
  intro first recovered
  obtain ⟨onward, known⟩ : start < first ∧ first ≤ items.length := by
    unfold first
    split <;> omega
  obtain ⟨next, skip, least⟩ := Reading.skip_atCursor inWhere recorded known
  have lt : start < next := Nat.lt_of_lt_of_le onward least.1.1
  have le : next ≤ items.length := least.2 ⟨known, .finish rfl⟩
  have eq : recovered = ((atCursor items next recorded).spanFrom items[start].span.start,
      atCursor items next recorded) := by
    unfold recovered
    rw [Reading.recover_atCursor inside within]
    dsimp only
    rw [skip]
  refine ⟨next, lt, le, least, by rw [eq], fun ascending => ?_⟩
  have covered := ascending.start_le_stop (Nat.le_sub_one_of_lt lt) (by omega)
  rw [eq, Reading.spanFrom, Reading.lastEnd_atCursor (Nat.zero_lt_of_lt lt) le,
    Nat.max_eq_left covered]

/-- In a `where`, a declaration that holds others and fails in the second of them. -/
theorem recovery_ends_at_first_boundary_where :
    let items := Item.ofLexemes (lexemes "let x = (let y = 1; let = ) end; z")
    let recovered := (atCursor items 10 []).recover true (atCursor items 0 [])
    Item.Ascending items ∧ ∃ _ : 0 < items.length, 10 ≤ items.length ∧
      ∃ (next : Nat) (_ : 0 < next) (_ : next ≤ items.length),
        IsLeast {i | 10 ≤ i ∧ Item.Stops true items 10 i} next ∧
        recovered.2 = atCursor items next [] ∧
        recovered.1 = ⟨items[0].span.start, items[next - 1].span.stop⟩ := by
  intro items recovered
  have ascending : Item.Ascending items := Item.ascending_of_tidy (Item.ofLexemes_tidy ..)
  have inside : 0 < items.length := by decide +kernel
  have within : 10 ≤ items.length := by decide +kernel
  obtain ⟨next, lt, le, least, state, place⟩ :=
    recovery_ends_at_first_boundary true items [] [] inside (Nat.zero_le 10) within
  exact ⟨ascending, inside, within, next, lt, le, least, state, place ascending⟩

end Mim
