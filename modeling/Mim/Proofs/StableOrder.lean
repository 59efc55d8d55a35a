import Mathlib.Data.List.Sort
import Mim.Source

/-! # The order of diagnostics

Diagnostics are sorted by where they start, and those that start together keep their order.
What is in order is told by what starts at each offset. So to sort what the grammar reports on
its own, to put it behind what the tokens report and to sort again is to sort once.
-/

namespace Mim

namespace Diagnostic

variable {ds es : List Diagnostic} {offset : Nat}

/-- A diagnostic starts no later than another. -/
def StartsBy (d e : Diagnostic) : Prop := d.span.start ≤ e.span.start

instance : DecidableRel StartsBy := fun d e => Nat.decLe d.span.start e.span.start

instance : IsTrans Diagnostic StartsBy := ⟨fun _ _ _ => Nat.le_trans⟩

instance : Std.Total StartsBy := ⟨fun d e => Nat.le_total d.span.start e.span.start⟩

/-- Diagnostics in the order of where they start. -/
def Sorted (ds : List Diagnostic) : Prop := ds.Pairwise fun d e => d.span.start ≤ e.span.start

theorem sort_eq_insertionSort (ds : List Diagnostic) : sort ds = ds.insertionSort StartsBy := by
  have insert_eq (d : Diagnostic) (es : List Diagnostic) :
      insert d es = es.orderedInsert StartsBy d := by
    induction es with
    | nil => rfl
    | cons e es ih =>
        rw [insert, ih]
        rfl
  induction ds with
  | nil => rfl
  | cons d ds ih => rw [List.insertionSort_cons, ← ih, ← insert_eq, sort, List.foldr_cons, ← sort]

/-- Every diagnostic of a sorted list was there before. -/
theorem sort_perm (ds : List Diagnostic) : (sort ds).Perm ds := by
  rw [sort_eq_insertionSort]
  exact List.perm_insertionSort StartsBy ds

theorem length_sort (ds : List Diagnostic) : (sort ds).length = ds.length :=
  (sort_perm ds).length_eq

theorem sorted_sort (ds : List Diagnostic) : Sorted (sort ds) := by
  rw [sort_eq_insertionSort]
  exact List.pairwise_insertionSort StartsBy ds

/-- What is in order already stays as it is. -/
theorem Sorted.sort_eq (h : Sorted ds) : sort ds = ds := by
  rw [sort_eq_insertionSort]
  exact List.Pairwise.insertionSort_eq h

/-- Those that start at an offset. -/
def startingAt (offset : Nat) (ds : List Diagnostic) : List Diagnostic :=
  ds.filter (·.span.start = offset)

theorem mem_startingAt {d : Diagnostic} :
    d ∈ startingAt offset ds ↔ d ∈ ds ∧ d.span.start = offset := by
  rw [startingAt, List.mem_filter, decide_eq_true_eq]

theorem startingAt_cons (d : Diagnostic) (ds : List Diagnostic) : startingAt offset (d :: ds) =
    if d.span.start = offset then d :: startingAt offset ds else startingAt offset ds := by
  rw [startingAt, List.filter_cons]
  simp only [decide_eq_true_eq]
  rfl

@[simp] theorem startingAt_append :
    startingAt offset (ds ++ es) = startingAt offset ds ++ startingAt offset es :=
  List.filter_append ..

theorem startingAt_filter (p : Diagnostic → Bool) :
    startingAt offset (ds.filter p) = (startingAt offset ds).filter p := List.filter_comm ..

/-- Diagnostics that start together are in order. -/
theorem sorted_startingAt (offset : Nat) (ds : List Diagnostic) : Sorted (startingAt offset ds) :=
  List.pairwise_of_forall_mem_list fun _ hd _ he =>
    Nat.le_of_eq ((mem_startingAt.1 hd).2.trans (mem_startingAt.1 he).2.symm)

/-- If those that start together are still there one after the other, and there are no others,
    they are all that starts there. -/
theorem startingAt_of_sublist (perm : es.Perm ds) (sub : (startingAt offset ds).Sublist es) :
    startingAt offset es = startingAt offset ds := by
  have all : (startingAt offset ds).filter (·.span.start = offset) = startingAt offset ds :=
    List.filter_eq_self.2 fun d hd => decide_eq_true (mem_startingAt.1 hd).2
  have kept := sub.filter (·.span.start = offset)
  rw [all] at kept
  exact (kept.eq_of_length (perm.filter _).length_eq.symm).symm

/-- Those that start together keep their order. -/
@[simp] theorem startingAt_sort : startingAt offset (sort ds) = startingAt offset ds := by
  apply startingAt_of_sublist (sort_perm ds)
  rw [sort_eq_insertionSort]
  exact List.sublist_insertionSort (sorted_startingAt offset ds) List.filter_sublist

/-- The first starts in front of the others or with them. -/
theorem Sorted.first_le {d e : Diagnostic} (h : Sorted (d :: ds)) (he : e ∈ d :: ds) :
    d.span.start ≤ e.span.start := by
  rcases List.mem_cons.1 he with rfl | he
  · exact Nat.le_refl _
  · exact List.rel_of_pairwise_cons h he

theorem mem_iff_of_startingAt (same : ∀ offset, startingAt offset ds = startingAt offset es)
    (d : Diagnostic) : d ∈ ds ↔ d ∈ es := by
  simpa [mem_startingAt] using congrArg (d ∈ ·) (same d.span.start)

/-- What is in order is told by what starts at each offset. -/
theorem Sorted.ext (hd : Sorted ds) (he : Sorted es)
    (same : ∀ offset, startingAt offset ds = startingAt offset es) : ds = es := by
  induction ds generalizing es with
  | nil =>
      have none (e : Diagnostic) : e ∉ es := (mem_iff_of_startingAt same e).not.1 List.not_mem_nil
      exact (List.eq_nil_iff_forall_not_mem.2 none).symm
  | cons d ds ih =>
      have mem := mem_iff_of_startingAt same
      cases es with
      | nil => exact absurd ((mem d).1 List.mem_cons_self) List.not_mem_nil
      | cons e es =>
          -- both lists start at the same offset, and so with the same diagnostic
          have together : d.span.start = e.span.start :=
            Nat.le_antisymm (hd.first_le ((mem e).2 List.mem_cons_self))
              (he.first_le ((mem d).1 List.mem_cons_self))
          obtain rfl : d = e := by
            have heads := same d.span.start
            rw [startingAt_cons, startingAt_cons, if_pos rfl, if_pos together.symm] at heads
            exact (List.cons.inj heads).1
          rw [ih (List.pairwise_cons.1 hd).2 (List.pairwise_cons.1 he).2]
          intro offset
          have rest := same offset
          rw [startingAt_cons, startingAt_cons] at rest
          split at rest
          · exact (List.cons.inj rest).2
          · exact rest

/-- What has been sorted on its own may be sorted together with what stands in front of it. -/
theorem sort_append_sort (ds es : List Diagnostic) : sort (ds ++ sort es) = sort (ds ++ es) :=
  (sorted_sort _).ext (sorted_sort _) fun offset => by simp

/-- What is left out does not change the order of the others. -/
theorem filter_sort (p : Diagnostic → Bool) (ds : List Diagnostic) :
    (sort ds).filter p = sort (ds.filter p) :=
  Sorted.ext ((sorted_sort ds).filter p) (sorted_sort _) fun offset => by
    simp [startingAt_filter]

/-- There is only one stable sort by where diagnostics start. -/
theorem sort_eq_mergeSort (ds : List Diagnostic) :
    sort ds = ds.mergeSort fun d e => d.span.start ≤ e.span.start := by
  have trans (c d e : Diagnostic) : decide (c.StartsBy d) → decide (d.StartsBy e) →
      decide (c.StartsBy e) := by
    simpa using trans_of StartsBy
  have total (d e : Diagnostic) : decide (d.StartsBy e) || decide (e.StartsBy d) := by
    simpa using total_of StartsBy d e
  have sorted : Sorted (ds.mergeSort (StartsBy · ·)) := List.pairwise_mergeSort' StartsBy ds
  refine (sorted_sort ds).ext sorted fun offset => ?_
  rw [startingAt_sort]
  refine (startingAt_of_sublist (List.mergeSort_perm ds _) ?_).symm
  have ordered := (sorted_startingAt offset ds).imp decide_eq_true
  exact List.sublist_mergeSort trans total ordered List.filter_sublist

end Diagnostic

open Diagnostic (startingAt)

/-- The diagnostics of a text are what its tokens report, then what its grammar reports, each as
    they were recorded, after one stable sort by where they start. None is lost, none is put in,
    they are in order, and of those that start together what the tokens report stands in
    front. -/
theorem diagnostics_are_sorted_once (text : String) :
    let tokens := Source.lexical text
    let grammar := (Source.reading text).file.2.diagnostics
    let all := (Source.ofText text).diagnostics
    all = (tokens ++ grammar).mergeSort (fun d e => d.span.start ≤ e.span.start) ∧
      all.Perm (tokens ++ grammar) ∧ Diagnostic.Sorted all ∧
      ∀ offset, startingAt offset all = startingAt offset tokens ++ startingAt offset grammar := by
  intro tokens grammar all
  have once : all = Diagnostic.sort (tokens ++ grammar) := Diagnostic.sort_append_sort tokens grammar
  rw [once]
  refine ⟨Diagnostic.sort_eq_mergeSort _, Diagnostic.sort_perm _, Diagnostic.sorted_sort _, ?_⟩
  intro offset
  rw [Diagnostic.startingAt_sort, Diagnostic.startingAt_append]

/-- At a numeral that gave up its point where a name should be, the token is told of first. -/
example : (Source.ofText "rec 1.x").diagnostics.map Diagnostic.cause =
    [.tieBreak .integerBeforeMember, .grammar (.unexpectedToken "name" "'1'")] := by
  decide +kernel

end Mim
