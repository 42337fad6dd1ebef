import ContextFree.Analysis.Closure

/-!
# Static properties of a grammar

Four sets of nonterminals are computed. A nonterminal is unreachable when no sentential form
of the start symbol contains it, unrealizable when it derives no terminal string, nullable
when it derives the empty string, and cyclic when it derives itself. A cyclic nonterminal that
is both reachable and realizable has strings with infinitely many derivations.

A nonterminal whose id lies beyond the name table does not fit into these sets. The first one
that is put into a set is a fault.
-/
namespace ContextFree

structure Analysis where
  unreachable : SymbolSet
  unrealizable : SymbolSet
  nullable : SymbolSet
  cyclic : SymbolSet

namespace Grammar

/-- The nonterminals in the productions of a symbol. -/
def mentioned (g : Grammar) (symbol : Symbol) : List Symbol :=
  (g.alternatives symbol).flatten.filter g.isNonterminal

def unreachableSet (g : Grammar) : Except Fault SymbolSet := do
  let reachable ← (g.symbolSet false).spread g.mentioned (.ofList g.start?.toList)
  let nonterminals ← g.nonterminalSet
  nonterminals.difference reachable

/-- The nonterminals that derive no terminal string. Terminals derive themselves, and the
left-hand side of an empty production derives the empty string. -/
def unrealizableSet (g : Grammar) : Except Fault SymbolSet := do
  let terminals ← g.terminalSet
  let nulling ← g.nullingSet
  let base ← terminals.union nulling
  let realizable ← g.closure base
  return realizable.negate

def nullableSet (g : Grammar) : Except Fault SymbolSet := do
  let nulling ← g.nullingSet
  g.closure nulling

/-- What a production leaves when everything around one symbol vanishes: every symbol of an
all-nullable right-hand side, or the only symbol that is not nullable, if it is a
nonterminal. -/
def trivialExpansion (g : Grammar) (nullable : SymbolSet) (rhs : List Symbol) : List Symbol :=
  match rhs.filter fun symbol => !nullable.contains symbol with
  | [] => rhs
  | [symbol] => if g.isNonterminal symbol then [symbol] else []
  | _ => []

/-- The symbols that a nonterminal trivially expands to in one step. -/
def trivialExpansions (g : Grammar) (nullable : SymbolSet) (symbol : Symbol) : List Symbol :=
  (g.alternatives symbol).flatMap (g.trivialExpansion nullable)

/-- Whether a symbol leads to itself in one or more steps of `next`. -/
def leadsToItself (g : Grammar) (next : Symbol → List Symbol) (symbol : Symbol) :
    Except Fault Bool := do
  let reached ← (g.symbolSet false).spread next (.ofList (next symbol))
  return reached.contains symbol

/-- The nonterminals that lead to themselves. -/
def recurrentSet (g : Grammar) (next : Symbol → List Symbol) : Except Fault SymbolSet :=
  g.nonterminals.foldlM (fun recurrent symbol => do
    if ← g.leadsToItself next symbol then recurrent.put symbol true else return recurrent)
    (g.symbolSet false)

/-- The nonterminals that derive themselves: those that trivially expand to themselves in one
or more steps. The trivial expansions are tabulated once for all of them. -/
def cyclicSet (g : Grammar) (nullable : SymbolSet) : Except Fault SymbolSet :=
  let next := g.trivialExpansions nullable
  let table := Symbol.tabulate g.symbolCount next
  g.recurrentSet (Symbol.lookUp table next)

theorem cyclicSet_eq (g : Grammar) (nullable : SymbolSet) :
    g.cyclicSet nullable = g.recurrentSet (g.trivialExpansions nullable) := by
  simp [cyclicSet]

def analysis (g : Grammar) : Except Fault Analysis := do
  let unreachable ← g.unreachableSet
  let unrealizable ← g.unrealizableSet
  let nullable ← g.nullableSet
  let cyclic ← g.cyclicSet nullable
  return ⟨unreachable, unrealizable, nullable, cyclic⟩

end Grammar

namespace Analysis

/-- Whether a cyclic nonterminal is both reachable and realizable. It may still stand beside
symbols that derive no string, in every sentential form that contains it. -/
def unboundedAmbiguity (a : Analysis) : Bool :=
  a.cyclic.members.any fun symbol =>
    !a.unreachable.contains symbol && !a.unrealizable.contains symbol

end Analysis

end ContextFree
