import Mathlib.Data.List.Basic
import Mathlib.Tactic.Lemma

/-!
# Rows joined by separators

Texts are written by joining rows of characters and read by splitting them again. Joining is known
from its first row, behind which every row follows with a separator in front of it. Splitting
undoes it when no row has a separator in it, and characters other than the separator may be left
out before or after.
-/
namespace ContextFree

variable {α : Type} {p : α → Bool} {a : α}

lemma intercalate_cons (separator row : List α) (rows : List (List α)) :
    separator.intercalate (row :: rows) = row ++ rows.flatMap (separator ++ ·) := by
  induction rows generalizing row with
  | nil => simp
  | cons next rows ih =>
    rw [List.intercalate_cons_cons, ih, List.flatMap_cons, List.append_assoc, List.append_assoc]

lemma intercalate_nil_left (rows : List (List α)) : [].intercalate rows = rows.flatten := by
  cases rows with
  | nil => rfl
  | cons row rows =>
    rw [intercalate_cons, List.flatten_cons]
    exact congrArg _ List.flatMap_id

lemma filter_intercalate (p : α → Bool) (separator : List α) (rows : List (List α)) :
    (separator.intercalate rows).filter p =
      (separator.filter p).intercalate (rows.map (List.filter p)) := by
  cases rows with
  | nil => rfl
  | cons row rows =>
    rw [List.map_cons, intercalate_cons, intercalate_cons, List.filter_append, List.filter_flatMap,
      List.flatMap_map]
    exact congrArg _ (List.flatMap_congr fun next _ => List.filter_append separator next)

lemma forall_mem_intercalate {P : α → Prop} {separator : List α} {rows : List (List α)}
    (hseparator : ∀ x ∈ separator, P x) (hrows : ∀ row ∈ rows, ∀ x ∈ row, P x) :
    ∀ x ∈ separator.intercalate rows, P x := by
  cases rows with
  | nil => simp
  | cons row rows =>
    obtain ⟨hrow, hrest⟩ := List.forall_mem_cons.1 hrows
    rw [intercalate_cons, List.forall_mem_append, List.forall_mem_flatMap]
    exact ⟨hrow, fun next hnext => List.forall_mem_append.2 ⟨hseparator, hrest next hnext⟩⟩

variable [DecidableEq α]

/-- What is no separator may be left out before a row is split. -/
lemma splitOn_filter (hsplit : p a = true) (row : List α) :
    (row.filter p).splitOn a = (row.splitOn a).map (List.filter p) := by
  induction row with
  | nil => rfl
  | cons x row ih =>
    rw [List.splitOn_cons_eq_if_modifyHead]
    by_cases hx : x = a
    · rw [hx, List.filter_cons_of_pos hsplit, List.splitOn_cons_eq_if_modifyHead, ih]
      simp
    · obtain ⟨first, rest, hsplitted⟩ := List.exists_cons_of_ne_nil (List.splitOn_ne_nil a row)
      rw [hsplitted, List.map_cons] at ih
      cases hkept : p x with
      | true =>
        rw [List.filter_cons_of_pos hkept, List.splitOn_cons_eq_if_modifyHead, ih, hsplitted]
        simp [hx, hkept]
      | false =>
        rw [List.filter_cons_of_neg (by simp [hkept]), ih, hsplitted]
        simp [hx, hkept]

/-- Rows that are ended by a separator each are found again by splitting, with nothing behind the
last separator. -/
lemma splitOn_flatMap_concat {rows : List (List α)} (h : ∀ row ∈ rows, a ∉ row) :
    (rows.flatMap (· ++ [a])).splitOn a = rows ++ [[]] := by
  induction rows with
  | nil => rfl
  | cons row rows ih =>
    obtain ⟨hrow, hrows⟩ := List.forall_mem_cons.1 h
    rw [List.flatMap_cons, List.append_assoc, List.singleton_append,
      List.splitOn_append_cons_self_of_not_mem hrow, ih hrows, List.cons_append]

end ContextFree
