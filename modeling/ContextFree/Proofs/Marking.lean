import ContextFree.Proofs.Outcomes
import ContextFree.Proofs.Productions
import ContextFree.SymbolSet

/-!
# What symbol sets mark

A symbol set of a given capacity marks a property when its members are exactly the symbols with
the property. Sets of a grammar are built without a fault when every left-hand side has a name,
and below they are described by what they mark.
-/
namespace ContextFree

namespace SymbolSet

variable {s t : SymbolSet} {symbol : Symbol} {symbols : List Symbol} {member : Bool}

/-- The members are the symbols with a property. -/
structure Marks (s : SymbolSet) (capacity : ℕ) (property : Symbol → Prop) : Prop where
  capacity : s.capacity = capacity
  contains : ∀ symbol, s.contains symbol = true ↔ property symbol

namespace Marks

variable {capacity : ℕ} {property other : Symbol → Prop}

lemma congr (h : s.Marks capacity property) (hiff : ∀ symbol, property symbol ↔ other symbol) :
    s.Marks capacity other :=
  ⟨h.capacity, fun symbol => (h.contains symbol).trans (hiff symbol)⟩

lemma contains_eq_false (h : s.Marks capacity property) :
    s.contains symbol = false ↔ ¬ property symbol := by
  rw [← h.contains, Bool.not_eq_true]

/-- Sets of one capacity that mark the same property have the same bits. -/
lemma eq (hs : s.Marks capacity property) (ht : t.Marks capacity property) : s = t := by
  have hsize : s.bits.size = t.bits.size := hs.capacity.trans ht.capacity.symm
  have hsame : ∀ symbol, s.contains symbol = t.contains symbol := fun symbol =>
    Bool.eq_iff_iff.2 ((hs.contains symbol).trans (ht.contains symbol).symm)
  suffices hbits : s.bits = t.bits by
    rw [show s = ⟨s.bits⟩ from rfl, hbits]
  ext i hi hi'
  · exact hsize
  · simpa [SymbolSet.contains, hi, hi'] using hsame ⟨i⟩

end Marks

lemma marks_filled_false (capacity : ℕ) : (filled capacity false).Marks capacity fun _ => False :=
  ⟨capacity_filled capacity false, by simp⟩

lemma marks_filled_true (capacity : ℕ) :
    (filled capacity true).Marks capacity fun symbol => symbol.id < capacity :=
  ⟨capacity_filled capacity true, by simp⟩

lemma exists_put (h : symbol.id < s.capacity) (member : Bool) :
    ∃ t, s.put symbol member = .ok t :=
  ⟨_, put_eq_ok_iff.2 ⟨h, rfl⟩⟩

lemma exists_putAll (h : ∀ symbol ∈ symbols, symbol.id < s.capacity) (member : Bool) :
    ∃ t, s.putAll symbols member = .ok t := by
  induction symbols generalizing s with
  | nil => exact ⟨s, rfl⟩
  | cons symbol symbols ih =>
    obtain ⟨hsymbol, hsymbols⟩ := List.forall_mem_cons.1 h
    obtain ⟨u, hu⟩ := exists_put hsymbol member
    rw [← capacity_of_put hu] at hsymbols
    obtain ⟨t, ht⟩ := ih hsymbols
    refine ⟨t, ?_⟩
    rw [putAll, List.foldlM_cons]
    exact bind_eq_ok_iff.2 ⟨u, hu, ht⟩

lemma capacity_of_putAll (h : s.putAll symbols member = .ok t) : t.capacity = s.capacity := by
  induction symbols generalizing s with
  | nil => rw [Except.ok.inj h]
  | cons symbol symbols ih =>
    rw [putAll, List.foldlM_cons] at h
    obtain ⟨u, hu, h⟩ := bind_eq_ok_iff.1 h
    rw [ih h, capacity_of_put hu]

/-- Putting a row of symbols in changes the membership of these symbols alone. -/
lemma contains_of_putAll (h : s.putAll symbols member = .ok t) (other : Symbol) :
    t.contains other = if other ∈ symbols then member else s.contains other := by
  induction symbols generalizing s with
  | nil => rw [Except.ok.inj h]; simp
  | cons symbol symbols ih =>
    rw [putAll, List.foldlM_cons] at h
    obtain ⟨u, hu, h⟩ := bind_eq_ok_iff.1 h
    rw [ih h, contains_of_put hu]
    by_cases hmem : other ∈ symbols
    · simp [hmem]
    · simp [hmem]

lemma contains_iff_of_putAll (h : s.putAll symbols true = .ok t) (other : Symbol) :
    t.contains other = true ↔ other ∈ symbols ∨ s.contains other = true := by
  rw [contains_of_putAll h]
  by_cases hmem : other ∈ symbols
  · simp [hmem]
  · simp [hmem]

lemma contains_combine {op : Bool → Bool → Bool} (hop : op false false = false)
    {other : SymbolSet} (h : s.combine op other = .ok t) (symbol : Symbol) :
    t.contains symbol = op (s.contains symbol) (other.contains symbol) := by
  unfold combine at h
  split at h
  · next hsize =>
    obtain rfl := Except.ok.inj h
    have hsize' : s.bits.size = other.bits.size := hsize
    rw [contains, contains, contains, Array.getElem?_zipWith]
    by_cases hlt : symbol.id < s.bits.size
    · have hlt' : symbol.id < other.bits.size := by omega
      simp [hlt, hlt']
    · have hlt' : ¬ symbol.id < other.bits.size := by omega
      simp [hlt, hlt', hop]
  · cases h

lemma exists_combine (op : Bool → Bool → Bool) {other : SymbolSet}
    (h : s.capacity = other.capacity) :
    ∃ t, s.combine op other = .ok t ∧ t.capacity = s.capacity := by
  refine ⟨⟨Array.zipWith op s.bits other.bits⟩, by simp [combine, h], ?_⟩
  have hsize : s.bits.size = other.bits.size := h
  simp [capacity, hsize]

namespace Marks

variable {capacity : ℕ} {property other : Symbol → Prop}

lemma exists_union (hs : s.Marks capacity property) (ht : t.Marks capacity other) :
    ∃ u, s.union t = .ok u ∧ u.Marks capacity fun symbol => property symbol ∨ other symbol := by
  obtain ⟨u, hu, hcapacity⟩ := exists_combine (· || ·) (hs.capacity.trans ht.capacity.symm)
  refine ⟨u, hu, hcapacity.trans hs.capacity, fun symbol => ?_⟩
  rw [contains_combine rfl hu, Bool.or_eq_true, hs.contains, ht.contains]

lemma exists_difference (hs : s.Marks capacity property) (ht : t.Marks capacity other) :
    ∃ u, s.difference t = .ok u ∧
      u.Marks capacity fun symbol => property symbol ∧ ¬ other symbol := by
  obtain ⟨u, hu, hcapacity⟩ :=
    exists_combine (fun a b => a && !b) (hs.capacity.trans ht.capacity.symm)
  refine ⟨u, hu, hcapacity.trans hs.capacity, fun symbol => ?_⟩
  rw [contains_combine rfl hu, Bool.and_eq_true, Bool.not_eq_true', hs.contains,
    ht.contains_eq_false]

lemma contains_negate (hs : s.Marks capacity property) :
    s.negate.contains symbol = true ↔ symbol.id < capacity ∧ ¬ property symbol := by
  by_cases hlt : symbol.id < capacity
  · rw [SymbolSet.contains_negate (hs.capacity.symm ▸ hlt), Bool.not_eq_true',
      hs.contains_eq_false]
    tauto
  · have hbeyond : s.negate.contains symbol ≠ true := by
      intro hcontains
      have := lt_capacity_of_contains hcontains
      rw [capacity_negate, hs.capacity] at this
      exact hlt this
    tauto

end Marks

end SymbolSet

namespace Grammar

variable {g : Grammar}

/-- A set of a grammar has room for its left-hand sides. -/
lemma exists_marks_putAll {s : SymbolSet} {property : Symbol → Prop} {symbols : List Symbol}
    (hs : s.Marks g.symbolCount property) (hnames : g.NamesLeft)
    (hsymbols : ∀ symbol ∈ symbols, symbol ∈ g.nonterminals) :
    ∃ t, s.putAll symbols true = .ok t ∧
      t.Marks g.symbolCount fun symbol => symbol ∈ symbols ∨ property symbol := by
  have hroom : ∀ symbol ∈ symbols, symbol.id < s.capacity := by
    intro symbol hsymbol
    rw [hs.capacity]
    exact hnames symbol (hsymbols symbol hsymbol)
  obtain ⟨t, ht⟩ := SymbolSet.exists_putAll hroom true
  refine ⟨t, ht, (SymbolSet.capacity_of_putAll ht).trans hs.capacity, fun symbol => ?_⟩
  rw [SymbolSet.contains_iff_of_putAll ht, hs.contains]

lemma exists_terminalSet (hnames : g.NamesLeft) :
    ∃ s, g.terminalSet = .ok s ∧
      s.Marks g.symbolCount fun symbol => symbol.id < g.symbolCount ∧ symbol ∉ g.nonterminals := by
  have hall := SymbolSet.marks_filled_true g.symbolCount
  have hroom : ∀ symbol ∈ g.nonterminals, symbol.id < (g.symbolSet true).capacity := by
    intro symbol hsymbol
    rw [symbolSet, SymbolSet.capacity_filled]
    exact hnames symbol hsymbol
  obtain ⟨s, hs⟩ := SymbolSet.exists_putAll hroom false
  refine ⟨s, hs, (SymbolSet.capacity_of_putAll hs).trans hall.capacity, fun symbol => ?_⟩
  rw [SymbolSet.contains_of_putAll hs, symbolSet]
  by_cases hmem : symbol ∈ g.nonterminals
  · simp [hmem]
  · simp [hmem]

lemma exists_nonterminalSet (hnames : g.NamesLeft) :
    ∃ s, g.nonterminalSet = .ok s ∧ s.Marks g.symbolCount fun symbol => symbol ∈ g.nonterminals := by
  obtain ⟨terminals, hterminals, hmarks⟩ := exists_terminalSet hnames
  refine ⟨terminals.negate, bind_eq_ok_iff.2 ⟨terminals, hterminals, rfl⟩,
    terminals.capacity_negate.trans hmarks.capacity, fun symbol => ?_⟩
  rw [hmarks.contains_negate]
  constructor
  · rintro ⟨hlt, hterminal⟩
    by_contra hmem
    exact hterminal ⟨hlt, hmem⟩
  · intro hmem
    exact ⟨hnames symbol hmem, fun hterminal => hterminal.2 hmem⟩

lemma exists_nullingSet (hnames : g.NamesLeft) :
    ∃ s, g.nullingSet = .ok s ∧
      s.Marks g.symbolCount fun symbol => ⟨symbol, []⟩ ∈ g.productions := by
  have hmem : ∀ symbol, symbol ∈ ((g.productions.filter fun production =>
      production.rhs.isEmpty).map Production.lhs) ↔ ⟨symbol, []⟩ ∈ g.productions := by
    intro symbol
    simp only [List.mem_map, List.mem_filter, List.isEmpty_iff]
    constructor
    · rintro ⟨⟨lhs, rhs⟩, ⟨hproduction, rfl⟩, rfl⟩
      exact hproduction
    · intro hproduction
      exact ⟨_, ⟨hproduction, rfl⟩, rfl⟩
  have hleft : ∀ symbol ∈ ((g.productions.filter fun production =>
      production.rhs.isEmpty).map Production.lhs), symbol ∈ g.nonterminals := by
    intro symbol hsymbol
    exact mem_nonterminals_iff.2 ⟨[], (hmem symbol).1 hsymbol⟩
  obtain ⟨s, hs, hmarks⟩ := exists_marks_putAll
    (SymbolSet.marks_filled_false g.symbolCount) hnames hleft
  exact ⟨s, hs, hmarks.congr fun symbol => by rw [hmem, or_false]⟩

end Grammar

end ContextFree
