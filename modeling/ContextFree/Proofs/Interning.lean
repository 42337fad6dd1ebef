import ContextFree.Symbol
import Mathlib.Data.List.Forall2
import Mathlib.Data.List.Induction
import Mathlib.Data.List.Nodup
import Mathlib.Tactic.Lemma

/-!
# Names that were interned

A name table is known from the names that were interned, in order: its entries are these names,
each where it occurred first. Symbols and names are inverse to each other, and a table that has
grown at its end gives the same answers for the names it knew before.
-/
namespace ContextFree

/-- One more element stands at the end unless it occurred before. -/
lemma eraseDups_concat {α : Type} [BEq α] [LawfulBEq α] (as : List α) (a : α) :
    (as ++ [a]).eraseDups = if a ∈ as then as.eraseDups else as.eraseDups ++ [a] := by
  rw [List.eraseDups_append]
  by_cases h : a ∈ as
  · simp [h, List.removeAll]
  · simp [h, List.removeAll, List.eraseDups_cons]

lemma nodup_eraseDups {α : Type} [BEq α] [LawfulBEq α] (as : List α) : as.eraseDups.Nodup := by
  induction as using List.reverseRecOn with
  | nil => exact List.nodup_nil
  | append_singleton as a ih =>
    rw [eraseDups_concat]
    split
    · exact ih
    · next hnew =>
      rw [← List.concat_eq_append]
      exact ih.concat fun hold => hnew (List.mem_eraseDups.1 hold)

namespace NameTable

variable {table more : NameTable} {name : String} {symbol : Symbol} {seen : List String}

/-- Symbols and names are inverse to each other. -/
theorem symbol?_eq_some_iff : table.symbol? name = some symbol ↔ table.name? symbol = some name := by
  constructor
  · exact symbol?_eq_some
  · intro h
    have hmem : name ∈ table.entries := List.mem_of_getElem? h
    obtain ⟨other, hother⟩ := Option.ne_none_iff_exists'.1 fun hnone =>
      symbol?_eq_none_iff.1 hnone hmem
    have hentry : table.entries[other.id]? = table.entries[symbol.id]? :=
      (symbol?_eq_some hother).trans h.symm
    obtain ⟨hlt, _⟩ := List.getElem?_eq_some_iff.1 (symbol?_eq_some hother)
    have hid : other.id = symbol.id := (List.getElem?_inj hlt table.distinct).1 hentry
    rw [hother, Option.some.injEq]
    cases other
    cases symbol
    exact congrArg Symbol.mk hid

lemma eq_of_name?_eq {other : Symbol} (h : table.name? symbol = some name)
    (hother : table.name? other = some name) : symbol = other :=
  Option.some.inj ((symbol?_eq_some_iff.2 h).symm.trans (symbol?_eq_some_iff.2 hother))

lemma isSome_name? : (table.name? symbol).isSome = true ↔ symbol.id < table.size := by
  simp [name?, size]

lemma exists_symbol? (h : name ∈ table.entries) : ∃ symbol, table.symbol? name = some symbol :=
  Option.ne_none_iff_exists'.1 fun hnone => symbol?_eq_none_iff.1 hnone h

lemma symbol?_intern (table : NameTable) (name : String) :
    (table.intern name).2.symbol? name = some (table.intern name).1 :=
  symbol?_eq_some_iff.2 (name?_intern table name)

/-- A table with more names at its end. -/
def Extends (more table : NameTable) : Prop := table.entries <+: more.entries

namespace Extends

lemma refl (table : NameTable) : table.Extends table := List.prefix_rfl

lemma trans {most : NameTable} (h : most.Extends more) (h' : more.Extends table) :
    most.Extends table :=
  List.IsPrefix.trans h' h

lemma name? (h : more.Extends table) (hname : table.name? symbol = some name) :
    more.name? symbol = some name := by
  obtain ⟨rest, hrest⟩ := h
  obtain ⟨hlt, _⟩ := List.getElem?_eq_some_iff.1 hname
  rw [NameTable.name?, ← hrest, List.getElem?_append_left hlt]
  exact hname

lemma symbol? (h : more.Extends table) (hsymbol : table.symbol? name = some symbol) :
    more.symbol? name = some symbol :=
  symbol?_eq_some_iff.2 (h.name? (symbol?_eq_some_iff.1 hsymbol))

end Extends

lemma entries_intern (table : NameTable) (name : String) :
    (table.intern name).2.entries =
      if name ∈ table.entries then table.entries else table.entries ++ [name] := by
  by_cases h : name ∈ table.entries
  · obtain ⟨symbol, hsymbol⟩ := exists_symbol? h
    rw [intern_of_known hsymbol, if_pos h]
  · rw [intern_of_new h, if_neg h]
    rfl

lemma extends_intern (table : NameTable) (name : String) : (table.intern name).2.Extends table := by
  rw [Extends, entries_intern]
  split
  · exact List.prefix_rfl
  · exact List.prefix_append table.entries [name]

lemma extends_internAll (table : NameTable) (names : List String) :
    (table.internAll names).2.Extends table := by
  induction names generalizing table with
  | nil => exact .refl table
  | cons name names ih => exact (ih (table.intern name).2).trans (extends_intern table name)

lemma symbol?_internAll (table : NameTable) (names : List String) :
    List.Forall₂ (fun name symbol => (table.internAll names).2.symbol? name = some symbol) names
      (table.internAll names).1 := by
  induction names generalizing table with
  | nil => exact .nil
  | cons name names ih =>
    refine .cons ?_ (ih (table.intern name).2)
    exact (extends_internAll (table.intern name).2 names).symbol? (symbol?_intern table name)

/-- A table holds the names it has seen, in order of first occurrence. -/
lemma entries_intern_of_seen (h : table.entries = seen.eraseDups) (name : String) :
    (table.intern name).2.entries = (seen ++ [name]).eraseDups := by
  rw [entries_intern, eraseDups_concat, h]
  simp only [List.mem_eraseDups]

lemma entries_internAll_of_seen (h : table.entries = seen.eraseDups) (names : List String) :
    (table.internAll names).2.entries = (seen ++ names).eraseDups := by
  induction names generalizing table seen with
  | nil =>
    rw [List.append_nil]
    exact h
  | cons name names ih =>
    rw [← List.singleton_append, ← List.append_assoc]
    exact ih (entries_intern_of_seen h name)

end NameTable

end ContextFree
