import ContextFree.Fault

/-!
# Symbols and their names

A grammar symbol is a number. Ids fit in 32 bits, and the largest 32-bit number is kept free,
so `Symbol.ofId` and `Symbol.ofIndex` refuse it. In inspection texts a symbol is shown one
higher than its id.

A name table gives every name it has met one symbol: the position of the name in the table.
Interning a known name gives its symbol back, interning a new one appends it. No entry is
ever moved, so a symbol keeps its name, and no name is entered twice.
-/
namespace ContextFree

structure Symbol where
  id : Nat
  deriving DecidableEq

namespace Symbol

/-- The 32-bit number that is no symbol's id. -/
def reservedId : Nat := 4294967295

def first : Symbol := ⟨0⟩

/-- The symbol of a 32-bit id. -/
def ofId (id : Nat) : Except Fault Symbol :=
  if id = reservedId then .error .symbolSpaceExhausted else .ok ⟨id⟩

/-- The symbol at a position of a table, which may be any machine word. -/
def ofIndex (index : Nat) : Except Fault Symbol :=
  if index < reservedId then .ok ⟨index⟩ else .error .symbolOutOfRange

/-- The form in which a symbol appears in inspection texts. -/
def inspect (symbol : Symbol) : String := s!"Symbol({symbol.id + 1})"

end Symbol

/-- Names in the order in which they were met. -/
structure NameTable where
  entries : List String := []
  distinct : entries.Nodup := by exact List.nodup_nil
  deriving DecidableEq

namespace NameTable

def size (table : NameTable) : Nat := table.entries.length

/-- The symbol of a name, if the table has met it. -/
def symbol? (table : NameTable) (name : String) : Option Symbol :=
  (table.entries.idxOf? name).map Symbol.mk

/-- The name of a symbol, if it has one. -/
def name? (table : NameTable) (symbol : Symbol) : Option String :=
  table.entries[symbol.id]?

/-- The first symbol that no name maps to. -/
def fresh (table : NameTable) : Symbol := ⟨table.size⟩

theorem symbol?_eq_none_iff {table : NameTable} {name : String} :
    table.symbol? name = none ↔ name ∉ table.entries := by
  simp [symbol?, List.idxOf?_eq_none_iff]

/-- The table with a new name at its end. -/
def append (table : NameTable) (name : String) (h : name ∉ table.entries) : NameTable where
  entries := table.entries ++ [name]
  distinct := List.nodup_append.2 ⟨table.distinct, by simp, by
    intro known hknown new hnew heq
    rw [List.mem_singleton.1 hnew] at heq
    exact h (heq ▸ hknown)⟩

/-- The symbol of a name, with the table that knows it. -/
def intern (table : NameTable) (name : String) : Symbol × NameTable :=
  match h : table.symbol? name with
  | some symbol => (symbol, table)
  | none => (table.fresh, table.append name (symbol?_eq_none_iff.1 h))

def internAll (table : NameTable) : List String → List Symbol × NameTable
  | [] => ([], table)
  | name :: names =>
    let (symbol, table) := table.intern name
    let (symbols, table) := table.internAll names
    (symbol :: symbols, table)

@[simp] theorem name?_fresh (table : NameTable) : table.name? table.fresh = none := by
  simp [name?, fresh, size]

theorem symbol?_eq_some {table : NameTable} {name : String} {symbol : Symbol}
    (h : table.symbol? name = some symbol) : table.name? symbol = some name := by
  obtain ⟨index, hindex, rfl⟩ := Option.map_eq_some_iff.1 h
  obtain ⟨hlt, hname, _⟩ := List.idxOf?_eq_some_iff.1 hindex
  simp only [name?, List.getElem?_eq_getElem hlt, Option.some.injEq]
  simpa using hname

theorem intern_of_known {table : NameTable} {name : String} {symbol : Symbol}
    (h : table.symbol? name = some symbol) : table.intern name = (symbol, table) := by
  unfold intern
  split <;> simp_all

theorem intern_of_new {table : NameTable} {name : String} (h : name ∉ table.entries) :
    table.intern name = (table.fresh, table.append name h) := by
  have hnone := symbol?_eq_none_iff.2 h
  unfold intern
  split
  · simp_all
  · rfl

theorem name?_intern (table : NameTable) (name : String) :
    (table.intern name).2.name? (table.intern name).1 = some name := by
  cases h : table.symbol? name with
  | some symbol => rw [intern_of_known h]; exact symbol?_eq_some h
  | none => simp [intern_of_new (symbol?_eq_none_iff.1 h), append, name?, fresh, size]

end NameTable

end ContextFree
