import ContextFree.Grammar.Basic

/-!
# Symbol sets

A symbol set is a bit vector, with one bit for every id below its capacity. Symbols beyond the
capacity are never members; putting one in, or combining sets of different capacity, is a
fault. The sets of a grammar have room for its named symbols.
-/
namespace ContextFree

structure SymbolSet where
  bits : Array Bool := #[]
  deriving DecidableEq

namespace SymbolSet

/-- The number of ids the set has room for. -/
def capacity (s : SymbolSet) : Nat := s.bits.size

/-- The set with room for `capacity` ids that has all of them or none. -/
def filled (capacity : Nat) (member : Bool) : SymbolSet := ⟨.replicate capacity member⟩

def contains (s : SymbolSet) (symbol : Symbol) : Bool := s.bits[symbol.id]?.getD false

/-- Makes a symbol a member or removes it. The test of the bounds, with its wording, is that of the
bit vector the sets stand on. -/
def put (s : SymbolSet) (symbol : Symbol) (member : Bool) : Except Fault SymbolSet :=
  if h : symbol.id < s.bits.size then .ok ⟨s.bits.set symbol.id member h⟩
  else .error (.indexOutOfBounds symbol.id s.capacity)

/-- Makes symbols members or removes them, from left to right. -/
def putAll (s : SymbolSet) (symbols : List Symbol) (member : Bool) : Except Fault SymbolSet :=
  symbols.foldlM (fun s symbol => s.put symbol member) s

/-- The ids within the capacity that are not members. -/
def negate (s : SymbolSet) : SymbolSet := ⟨s.bits.map not⟩

/-- Combines the bits of two sets of the same capacity. -/
def combine (op : Bool → Bool → Bool) (s other : SymbolSet) : Except Fault SymbolSet :=
  if s.capacity = other.capacity then .ok ⟨Array.zipWith op s.bits other.bits⟩
  else .error (.sizeMismatch s.capacity other.capacity)

def union : SymbolSet → SymbolSet → Except Fault SymbolSet := combine (· || ·)

/-- The members of `s` that are not members of `other`. -/
def difference : SymbolSet → SymbolSet → Except Fault SymbolSet := combine (fun a b => a && !b)

/-- The members in order of their ids. -/
def members (s : SymbolSet) : List Symbol :=
  ((List.range s.capacity).map Symbol.mk).filter s.contains

def count (s : SymbolSet) : Nat := s.members.length

def isEmpty (s : SymbolSet) : Bool := s.bits.all not

/-- The number of ids within the capacity that are not members. -/
def absent (s : SymbolSet) : Nat := s.bits.count false

/-- The names of the members: nonterminals of the grammar in order of definition, then other
symbols by id. Members without a name are left out. -/
def names (s : SymbolSet) (g : Grammar) : List String :=
  (g.nonterminals.filter s.contains ++
    s.members.filter fun symbol => !g.isNonterminal symbol).filterMap g.name?

theorem put_eq_ok_iff {s t : SymbolSet} {symbol : Symbol} {member : Bool} :
    s.put symbol member = .ok t ↔
      ∃ h : symbol.id < s.bits.size, SymbolSet.mk (s.bits.set symbol.id member h) = t := by
  by_cases h : symbol.id < s.bits.size <;> simp [put, h]

@[simp] theorem capacity_filled (capacity : Nat) (member : Bool) :
    (filled capacity member).capacity = capacity :=
  Array.size_replicate

@[simp] theorem contains_filled (capacity : Nat) (member : Bool) (symbol : Symbol) :
    (filled capacity member).contains symbol = (decide (symbol.id < capacity) && member) := by
  by_cases h : symbol.id < capacity <;> simp [contains, filled, h]

@[simp] theorem capacity_negate (s : SymbolSet) : s.negate.capacity = s.capacity :=
  Array.size_map

theorem contains_negate {s : SymbolSet} {symbol : Symbol} (h : symbol.id < s.capacity) :
    s.negate.contains symbol = !s.contains symbol := by
  have hlt : symbol.id < s.bits.size := h
  simp [contains, negate, hlt]

theorem capacity_of_put {s t : SymbolSet} {symbol : Symbol} {member : Bool}
    (h : s.put symbol member = .ok t) : t.capacity = s.capacity := by
  obtain ⟨hlt, rfl⟩ := put_eq_ok_iff.1 h
  exact Array.size_set hlt

/-- Putting a symbol in changes the membership of that symbol alone. -/
theorem contains_of_put {s t : SymbolSet} {symbol : Symbol} {member : Bool}
    (h : s.put symbol member = .ok t) (other : Symbol) :
    t.contains other = if other = symbol then member else s.contains other := by
  obtain ⟨hlt, rfl⟩ := put_eq_ok_iff.1 h
  by_cases hsame : other = symbol
  · subst hsame
    simp [contains, hlt]
  · have hid : symbol.id ≠ other.id := fun hid => hsame (by cases other; cases symbol; simp_all)
    simp [contains, hsame, Array.getElem?_set_ne hlt hid]

theorem lt_capacity_of_contains {s : SymbolSet} {symbol : Symbol}
    (h : s.contains symbol = true) : symbol.id < s.capacity := by
  rcases Nat.lt_or_ge symbol.id s.capacity with hlt | hge
  · exact hlt
  · rw [contains, Array.getElem?_eq_none hge] at h
    nomatch h

@[simp] theorem mem_members {s : SymbolSet} {symbol : Symbol} :
    symbol ∈ s.members ↔ s.contains symbol = true := by
  simp only [members, List.mem_filter, List.mem_map, List.mem_range]
  exact ⟨fun h => h.2, fun h => ⟨⟨symbol.id, lt_capacity_of_contains h, rfl⟩, h⟩⟩

/-- A symbol that was no member leaves one id fewer outside the set. -/
theorem absent_of_put {s t : SymbolSet} {symbol : Symbol} (hput : s.put symbol true = .ok t)
    (hnew : s.contains symbol = false) : t.absent + 1 = s.absent := by
  obtain ⟨hlt, rfl⟩ := put_eq_ok_iff.1 hput
  have hbit : s.bits[symbol.id] = false := by
    simpa [contains, Array.getElem?_eq_getElem hlt] using hnew
  have hpos : 0 < s.bits.count false :=
    Array.count_pos_iff.2 (hbit ▸ Array.getElem_mem hlt)
  simp only [absent, Array.count_set hlt, hbit]
  simp
  omega

end SymbolSet

namespace Grammar

/-- The set with room for every named symbol that has all of them or none. -/
def symbolSet (g : Grammar) (member : Bool) : SymbolSet := .filled g.symbolCount member

/-- The named symbols without a rule. -/
def terminalSet (g : Grammar) : Except Fault SymbolSet :=
  (g.symbolSet true).putAll g.nonterminals false

def nonterminalSet (g : Grammar) : Except Fault SymbolSet := do
  let terminals ← g.terminalSet
  return terminals.negate

/-- The nonterminals that have an empty production. -/
def nullingSet (g : Grammar) : Except Fault SymbolSet :=
  (g.symbolSet false).putAll
    ((g.productions.filter fun production => production.rhs.isEmpty).map Production.lhs) true

end Grammar

end ContextFree
