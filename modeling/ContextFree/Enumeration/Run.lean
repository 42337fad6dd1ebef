import ContextFree.Tree.Order

/-!
# Enumeration by depth

An expansion holds, for every nonterminal, the derivation trees found so far. A step builds
the trees of every nonterminal anew: each production is combined with every choice of trees
that the previous step left for its symbols, so after `d` steps a nonterminal holds its trees
of depth at most `d`. Trees found twice are kept once.

Every tree built is paid for with its height times its width. When the total goes above the
limit the step is given up: the cost remains, and trees and depth are those from before.

A run takes steps until a depth is reached, a step is given up, or a step leaves the number of
trees as it was. In the last case every tree has been found, and the enumeration is
exhaustive.
-/
namespace ContextFree

structure EnumerationLimits where
  /-- The largest total cost of all trees built. A tree costs its height times its width. -/
  work : Nat := 10000
  /-- The largest number of steps; without it the grammar decides. -/
  maxDepth : Option Nat := none
  deriving DecidableEq

/-- Why a step of an enumeration was not finished. -/
inductive EnumerationError
  /-- The total cost of the trees built went above the limit. -/
  | workLimitExceeded
  deriving DecidableEq

namespace EnumerationError

def message : EnumerationError → String
  | workLimitExceeded => "work limit exceeded"

end EnumerationError

namespace EnumerationLimits

/-- The largest number of steps for a grammar: nine more than it has nonterminals, unless the
limits say otherwise. -/
def maxDepthFor (limits : EnumerationLimits) (g : Grammar) : Nat :=
  limits.maxDepth.getD (g.nonterminals.length + 9)

end EnumerationLimits

/-- The trees found for a nonterminal, in the order in which they were built. -/
structure Language where
  symbol : Symbol
  trees : List Tree

/-- The state of an enumeration. -/
structure Expansion where
  grammar : Grammar
  /-- The largest total cost. -/
  limit : Nat
  /-- One language for every nonterminal, in order of definition. -/
  languages : List Language
  /-- The total cost of all trees built, in a step that was given up as well. -/
  cost : Nat
  /-- The number of finished steps. -/
  depth : Nat

inductive ExpansionEvent
  /-- A step was finished. -/
  | deepened (depth size : Nat)
  /-- A step towards `depth` was given up. -/
  | limitExceeded (limit depth : Nat)

namespace ExpansionEvent

def level : ExpansionEvent → Level
  | deepened _ _ => .debug
  | limitExceeded _ _ => .warn

def message : ExpansionEvent → String
  | deepened depth size => s!"depth {depth}: {size} trees"
  | limitExceeded limit depth => s!"work limit {limit} exceeded at depth {depth}"

end ExpansionEvent

def Tree.cost (tree : Tree) : Nat := Word.saturatingMul tree.height tree.width

namespace Expansion

/-- Why a step is not finished. -/
inductive Stop
  | fault (fault : Fault)
  /-- The total cost went above the limit. -/
  | limitExceeded (cost : Nat)

/-- What a step has built so far for one nonterminal, and the total cost. -/
structure Harvest where
  cost : Nat
  trees : OrderedSet Tree

def start (grammar : Grammar) (limit : Nat) : Expansion :=
  ⟨grammar, limit, grammar.nonterminals.map fun symbol => ⟨symbol, []⟩, 0, 0⟩

/-- The trees of a nonterminal, or nothing for a terminal. -/
def trees? (e : Expansion) (symbol : Symbol) : Option (List Tree) :=
  (e.languages.find? fun language => language.symbol = symbol).map Language.trees

/-- The trees of a nonterminal; a terminal has none. -/
def derivations (e : Expansion) (symbol : Symbol) : List Tree := (e.trees? symbol).getD []

/-- The number of trees of each nonterminal, in order of definition. -/
def sizes (e : Expansion) : List Nat := e.languages.map fun language => language.trees.length

/-- The number of trees of all nonterminals together. -/
def size (e : Expansion) : Nat := (e.languages.flatMap Language.trees).length

/-- The trees that may stand for a symbol of a production. -/
def choices (e : Expansion) (symbol : Symbol) : List Tree :=
  (e.trees? symbol).getD [e.grammar.leaf symbol]

/-- Puts every choice for a symbol in front of every row. -/
def prepend (e : Expansion) (rows : List (List Tree)) (symbol : Symbol) : List (List Tree) :=
  (e.choices symbol).flatMap fun tree => rows.map (tree :: ·)

/-- Every row of trees for a right-hand side. Rows grow from the right, so that those for the
rest of the right-hand side are shared by all choices for a symbol. -/
def products (e : Expansion) (rhs : List Symbol) : List (List Tree) :=
  rhs.reverse.foldl e.prepend [[]]

@[simp] theorem products_nil (e : Expansion) : e.products [] = [[]] := rfl

theorem products_cons (e : Expansion) (symbol : Symbol) (rhs : List Symbol) :
    e.products (symbol :: rhs) = e.prepend (e.products rhs) symbol := by
  simp only [products, List.reverse_cons, List.foldl_append, List.foldl_cons, List.foldl_nil]

/-- Builds one tree, pays for it, and keeps it if it is new. -/
def build (limit : Nat) (symbol : Symbol) (harvest : Harvest) (children : List Tree) :
    Except Stop Harvest :=
  match Tree.node symbol children with
  | .error fault => .error (.fault fault)
  | .ok tree =>
    let cost := Word.saturatingAdd harvest.cost tree.cost
    if limit < cost then .error (.limitExceeded cost)
    else .ok ⟨cost, harvest.trees.insert tree⟩

/-- Builds the trees of one nonterminal, production by production. -/
def buildRule (e : Expansion) (cost : Nat) (rule : Rule) : Except Stop Harvest :=
  rule.alternatives.foldlM
    (fun harvest rhs => (e.products rhs).foldlM (build e.limit rule.lhs) harvest) ⟨cost, .empty⟩

/-- Builds the languages of the rules, with the total cost in the end. -/
def buildRules (e : Expansion) (cost : Nat) :
    (rules : List Rule) → Except Stop (Nat × List Language)
  | [] => .ok (cost, [])
  | rule :: rules => do
    let harvest ← e.buildRule cost rule
    let (cost, languages) ← e.buildRules harvest.cost rules
    return (cost, ⟨rule.lhs, harvest.trees.toList⟩ :: languages)

/-- One step. It either deepens every language or is given up with nothing but the cost
changed. -/
def expand (e : Expansion) :
    Logged ExpansionEvent (Expansion × Except EnumerationError Unit) :=
  match e.buildRules e.cost e.grammar.rules with
  | .error (.fault fault) => Logged.quiet (.error fault)
  | .error (.limitExceeded cost) => do
    Logged.emit (.limitExceeded e.limit (e.depth + 1))
    return ({ e with cost }, .error .workLimitExceeded)
  | .ok (cost, languages) => do
    let next := { e with languages, cost, depth := e.depth + 1 }
    Logged.emit (.deepened next.depth next.size)
    return (next, .ok ())

end Expansion

/-- The outcome of a run. -/
structure Enumeration where
  /-- Derivation trees of the start symbol. -/
  trees : List Tree
  /-- Whether every tree was found. -/
  exhaustive : Bool
  /-- The number of finished steps. -/
  depth : Nat

namespace Expansion

/-- Takes at most `steps` steps. The answer tells whether the last one found nothing new. -/
def advance : (steps : Nat) → Expansion → Logged ExpansionEvent (Expansion × Bool)
  | 0, e => return (e, false)
  | steps + 1, e => do
    let (next, result) ← e.expand
    match result with
    | .error _ => return (next, false)
    | .ok () => if next.size = e.size then return (next, true) else advance steps next

def startTrees (e : Expansion) : List Tree :=
  match e.grammar.start? with
  | some start => e.derivations start
  | none => []

/-- Takes steps until `maxDepth` is reached, and gives the outcome with the state after it. -/
def run (e : Expansion) (maxDepth : Nat) : Logged ExpansionEvent (Enumeration × Expansion) := do
  let (last, exhaustive) ← advance (maxDepth - e.depth) e
  return (⟨last.startTrees, exhaustive, last.depth⟩, last)

end Expansion

/-- Enumerates the derivation trees of the start symbol within limits. -/
def Grammar.enumerate (g : Grammar) (limits : EnumerationLimits) :
    Logged ExpansionEvent Enumeration := do
  let (enumeration, _) ← (Expansion.start g limits.work).run (limits.maxDepthFor g)
  return enumeration

end ContextFree
