import Mathlib.Data.List.Pairwise
import Mathlib.Tactic.Lemma

/-!
# Stable arrangements

A row has one stable arrangement in ascending order. Elements that compare equal form classes, and
an arrangement is stable when it keeps every class as it stands in the row. Two such arrangements
start with the same element: their first elements are below each other, so they are of one class,
and both lead that class in the row. A merge sort makes such an arrangement.
-/
namespace ContextFree

variable {α : Type} {cmp : α → α → Ordering} {row sorted other : List α}

/-- The elements of a row that compare equal to a given one, in the order of the row. -/
def tied (cmp : α → α → Ordering) (a : α) (row : List α) : List α :=
  row.filter fun b => cmp a b = .eq

/-- A stable arrangement of a row in ascending order. -/
structure Sorts (cmp : α → α → Ordering) (row sorted : List α) : Prop where
  perm : sorted.Perm row
  ascending : sorted.Pairwise fun a b => (cmp a b).isLE = true
  stable : ∀ a, tied cmp a sorted = tied cmp a row

lemma tied_cons_of_eq {a b : α} (h : cmp a b = .eq) (row : List α) :
    tied cmp a (b :: row) = b :: tied cmp a row := by
  simp [tied, h]

lemma tied_cons_of_ne {a b : α} (h : cmp a b ≠ .eq) (row : List α) :
    tied cmp a (b :: row) = tied cmp a row := by
  simp [tied, h]

lemma tied_eq_of_cons {a b : α} (h : tied cmp a (b :: sorted) = tied cmp a (b :: other)) :
    tied cmp a sorted = tied cmp a other := by
  by_cases hab : cmp a b = .eq
  · simpa [tied_cons_of_eq hab] using h
  · simpa [tied_cons_of_ne hab] using h

variable [Std.TransCmp cmp]

lemma isLE_total (cmp : α → α → Ordering) [Std.TransCmp cmp] (a b : α) :
    ((cmp a b).isLE || (cmp b a).isLE) = true := by
  have hswap : cmp b a = (cmp a b).swap := Std.OrientedCmp.eq_swap
  rw [hswap]
  cases cmp a b <;> rfl

/-- The first element of an ascending row is below every element of the row. -/
lemma isLE_of_mem_cons {a b : α}
    (h : (a :: sorted).Pairwise fun a b => (cmp a b).isLE = true) (hb : b ∈ a :: sorted) :
    (cmp a b).isLE = true := by
  rcases List.mem_cons.1 hb with rfl | hb
  · simp [Std.ReflCmp.compare_self]
  · exact List.rel_of_pairwise_cons h hb

/-- Ascending rows with the same elements and the same classes are equal. -/
lemma eq_of_tied_eq (hperm : sorted.Perm other)
    (hsorted : sorted.Pairwise fun a b => (cmp a b).isLE = true)
    (hother : other.Pairwise fun a b => (cmp a b).isLE = true)
    (htied : ∀ a, tied cmp a sorted = tied cmp a other) : sorted = other := by
  induction sorted generalizing other with
  | nil => exact (List.nil_perm.1 hperm).symm
  | cons a sorted ih =>
    cases other with
    | nil => exact absurd hperm (by simp)
    | cons b other =>
      have hab : cmp a b = .eq := Std.OrientedCmp.isLE_antisymm
        (isLE_of_mem_cons hsorted (hperm.mem_iff.2 List.mem_cons_self))
        (isLE_of_mem_cons hother (hperm.mem_iff.1 List.mem_cons_self))
      -- both lead the class of `a`
      have hlead := htied a
      rw [tied_cons_of_eq Std.ReflCmp.compare_self, tied_cons_of_eq hab] at hlead
      obtain rfl : a = b := (List.cons.inj hlead).1
      rw [ih hperm.cons_inv hsorted.tail hother.tail fun c => tied_eq_of_cons (htied c)]

lemma Sorts.eq (h : Sorts cmp row sorted) (h' : Sorts cmp row other) : sorted = other :=
  eq_of_tied_eq (h.perm.trans h'.perm.symm) h.ascending h'.ascending fun a =>
    (h.stable a).trans (h'.stable a).symm

/-- A merge sort is stable, since a class is an ascending row within the row. -/
lemma sorts_mergeSort (cmp : α → α → Ordering) [Std.TransCmp cmp] (row : List α) :
    Sorts cmp row (row.mergeSort fun a b => (cmp a b).isLE) where
  perm := row.mergeSort_perm _
  ascending := List.pairwise_mergeSort (fun _ _ _ => Std.TransCmp.isLE_trans) (isLE_total cmp) row
  stable a := by
    have hclass : (tied cmp a row).Pairwise fun b c => (cmp b c).isLE = true := by
      refine List.pairwise_of_forall_mem_list fun b hb c hc => ?_
      have hab : cmp a b = .eq := by simpa using (List.mem_filter.1 hb).2
      have hac : cmp a c = .eq := by simpa using (List.mem_filter.1 hc).2
      rw [← Std.TransCmp.congr_left hab, hac]
      rfl
    have hsublist : (tied cmp a row).Sublist (row.mergeSort fun a b => (cmp a b).isLE) :=
      List.sublist_mergeSort (fun _ _ _ => Std.TransCmp.isLE_trans) (isLE_total cmp) hclass
        List.filter_sublist
    have hfilter := hsublist.filter fun b => cmp a b = .eq
    rw [tied, List.filter_filter] at hfilter
    simp only [Bool.and_self] at hfilter
    exact (hfilter.eq_of_length ((row.mergeSort_perm _).filter _).length_eq.symm).symm

end ContextFree
