import ContextFree.Analysis.Closure
import ContextFree.Proofs.Arranging

/-!
# Looking up productions by symbol

An ascending row comes in two parts at every key. So the binary search for a symbol ends where its
occurrences start, and they go on to the first one of a larger symbol. As sorting is stable, the
occurrences of a symbol are found in the order of the grammar.
-/
namespace ContextFree

variable {α : Type} {key : α → ℕ} {row : List α}

/-- At every key the smaller elements of an ascending row stand in front of the others. -/
lemma filter_lt_append_filter_le (h : row.Pairwise fun a b => key a ≤ key b) (k : ℕ) :
    (row.filter fun a => key a < k) ++ (row.filter fun a => k ≤ key a) = row := by
  induction row with
  | nil => rfl
  | cons a row ih =>
    by_cases ha : key a < k
    · simpa [ha, Nat.not_le.2 ha] using ih h.tail
    · have hge : ∀ b ∈ a :: row, k ≤ key b := by
        intro b hb
        rcases List.mem_cons.1 hb with rfl | hb
        · omega
        · have := List.rel_of_pairwise_cons h hb
          omega
      have hfront : ((a :: row).filter fun b => key b < k) = [] :=
        List.filter_eq_nil_iff.2 fun b hb => by simpa using hge b hb
      have hback : ((a :: row).filter fun b => k ≤ key b) = a :: row :=
        List.filter_eq_self.2 fun b hb => by simpa using hge b hb
      rw [hfront, hback, List.nil_append]

/-- From its smallest key on, an ascending row starts with all elements of that key. -/
lemma takeWhile_eq_filter (h : row.Pairwise fun a b => key a ≤ key b) {k : ℕ}
    (hrow : ∀ a ∈ row, k ≤ key a) :
    (row.takeWhile fun a => key a = k) = row.filter fun a => key a = k := by
  induction row with
  | nil => rfl
  | cons a row ih =>
    by_cases ha : key a = k
    · simpa [ha] using ih h.tail fun b hb => hrow b (List.mem_cons_of_mem a hb)
    · have hlt : k < key a := by
        have := hrow a List.mem_cons_self
        omega
      have hnone : (row.filter fun b => key b = k) = [] := List.filter_eq_nil_iff.2 fun b hb => by
        have := List.rel_of_pairwise_cons h hb
        simp only [decide_eq_true_eq]
        omega
      simp [ha, hnone]

lemma Symbol.eq_iff_id_eq {a b : Symbol} : a = b ↔ a.id = b.id := by
  rw [Symbol.mk.injEq]

namespace Occurrence

instance : Std.TransCmp compareSymbols :=
  inferInstanceAs (Std.TransCmp (compareOn fun occurrence : Occurrence => occurrence.symbol.id))

lemma isLE_compareSymbols {a b : Occurrence} :
    (a.compareSymbols b).isLE = true ↔ a.symbol.id ≤ b.symbol.id :=
  Nat.isLE_compare

lemma compareSymbols_eq_eq {a b : Occurrence} :
    a.compareSymbols b = .eq ↔ b.symbol = a.symbol := by
  rw [compareSymbols, Nat.compare_eq_eq, eq_comm, Symbol.eq_iff_id_eq]

/-- In an ascending table the look-up of a symbol finds all its occurrences and nothing else. -/
theorem find_eq_filter {table : Array Occurrence}
    (h : table.toList.Pairwise fun a b => (a.compareSymbols b).isLE = true) (symbol : Symbol) :
    find table symbol = table.toList.filter fun occurrence => occurrence.symbol = symbol := by
  simp only [isLE_compareSymbols] at h
  have hparts := filter_lt_append_filter_le h symbol.id
  have hstart : partitionPoint (fun occurrence => occurrence.symbol.id < symbol.id) table = _ :=
    partitionPoint_eq_length hparts.symm (by simp) (by simp)
  have hback : table.toList.drop (partitionPoint
      (fun occurrence => occurrence.symbol.id < symbol.id) table) =
      table.toList.filter fun occurrence => symbol.id ≤ occurrence.symbol.id := by
    have hdrop := congrArg (List.drop (table.toList.filter fun occurrence =>
      occurrence.symbol.id < symbol.id).length) hparts
    rw [List.drop_left] at hdrop
    rw [hstart, ← hdrop]
  have hkey : (fun occurrence : Occurrence => decide (occurrence.symbol = symbol)) =
      fun occurrence => decide (occurrence.symbol.id = symbol.id) := by
    simp only [Symbol.eq_iff_id_eq]
  rw [find, hback, hkey, takeWhile_eq_filter (h.filter _) (by simp), List.filter_filter]
  refine List.filter_congr fun occurrence _ => ?_
  by_cases hid : occurrence.symbol.id = symbol.id <;> simp [hid]

end Occurrence

namespace Grammar

variable {g : Grammar} {symbol : Symbol} {occurrence : Occurrence}

/-- The occurrences of a symbol are found in the order of the grammar, each as often as the symbol
stands in the right-hand side. -/
theorem find_occurrenceTable (g : Grammar) (symbol : Symbol) :
    Occurrence.find g.occurrenceTable symbol =
      g.occurrences.filter fun occurrence => occurrence.symbol = symbol := by
  have hsorts : Sorts Occurrence.compareSymbols g.occurrences g.occurrenceTable.toList :=
    sorts_mergeSort Occurrence.compareSymbols g.occurrences
  rw [Occurrence.find_eq_filter hsorts.ascending]
  simpa [tied, Occurrence.compareSymbols_eq_eq] using hsorts.stable ⟨symbol, symbol, []⟩

lemma mem_occurrences :
    occurrence ∈ g.occurrences ↔
      occurrence.production ∈ g.productions ∧ occurrence.symbol ∈ occurrence.production.rhs := by
  obtain ⟨symbol, production⟩ := occurrence
  simp only [occurrences, List.mem_flatMap, List.mem_map, Occurrence.mk.injEq]
  constructor
  · rintro ⟨_, hproduction, _, hsymbol, rfl, rfl⟩
    exact ⟨hproduction, hsymbol⟩
  · rintro ⟨hproduction, hsymbol⟩
    exact ⟨production, hproduction, symbol, hsymbol, rfl, rfl⟩

lemma mem_find :
    occurrence ∈ Occurrence.find g.occurrenceTable symbol ↔
      occurrence.production ∈ g.productions ∧ symbol ∈ occurrence.production.rhs ∧
        occurrence.symbol = symbol := by
  rw [find_occurrenceTable, List.mem_filter, mem_occurrences]
  constructor
  · rintro ⟨⟨hproduction, hsymbol⟩, heq⟩
    obtain rfl : occurrence.symbol = symbol := by simpa using heq
    exact ⟨hproduction, hsymbol, rfl⟩
  · rintro ⟨hproduction, hsymbol, rfl⟩
    exact ⟨⟨hproduction, hsymbol⟩, by simp⟩

end Grammar

end ContextFree
