import ContextFree.Grammar.Basic
import ContextFree.Shape

/-!
# Derivations

What it means to derive, said without any parser or enumerator. A shape is valid for a grammar
when its leaves are terminals and every node, read with the roots of its children, is a
production. A derivation tree of a symbol is a valid node with that symbol at its root; the
sentence it derives is the row of its leaves.

Derivation is also a rewriting of rows of symbols: one step replaces one nonterminal by one of
its right-hand sides.
-/
namespace ContextFree.Grammar

/-- Leaves are terminals, and nodes are productions. -/
inductive Valid (g : Grammar) : Shape → Prop
  | leaf (symbol : Symbol) (terminal : symbol ∉ g.nonterminals) : Valid g (.leaf symbol)
  | node (symbol : Symbol) (children : List Shape)
      (production : ⟨symbol, children.map Shape.root⟩ ∈ g.productions)
      (valid : ∀ child ∈ children, Valid g child) : Valid g (.node symbol children)

/-- A derivation tree of a symbol. -/
def IsDerivation (g : Grammar) (symbol : Symbol) (shape : Shape) : Prop :=
  g.Valid shape ∧ ∃ children, shape = .node symbol children

/-- One rewriting step on rows of symbols. -/
inductive Rewrites (g : Grammar) : List Symbol → List Symbol → Prop
  | step (before : List Symbol) (production : Production) (after : List Symbol)
      (mem : production ∈ g.productions) :
      Rewrites g (before ++ production.lhs :: after) (before ++ production.rhs ++ after)

/-- Every left-hand side has a name. -/
def NamesLeft (g : Grammar) : Prop := ∀ symbol ∈ g.nonterminals, symbol.id < g.symbolCount

/-- Every symbol of every production has a name. -/
def NamesAll (g : Grammar) : Prop :=
  ∀ production ∈ g.productions, production.lhs.id < g.symbolCount ∧
    ∀ symbol ∈ production.rhs, symbol.id < g.symbolCount

namespace Valid

variable {g : Grammar}

theorem production_mem {symbol : Symbol} {children : List Shape}
    (h : g.Valid (.node symbol children)) :
    ⟨symbol, children.map Shape.root⟩ ∈ g.productions := by
  cases h with
  | node _ _ production => exact production

theorem of_mem {symbol : Symbol} {children : List Shape} (h : g.Valid (.node symbol children))
    {child : Shape} (mem : child ∈ children) : g.Valid child := by
  cases h with
  | node _ _ _ valid => exact valid child mem

theorem terminal_of_leaf {symbol : Symbol} (h : g.Valid (.leaf symbol)) :
    symbol ∉ g.nonterminals := by
  cases h with
  | leaf _ terminal => exact terminal

end Valid

theorem root_of_isDerivation {g : Grammar} {symbol : Symbol} {shape : Shape}
    (h : g.IsDerivation symbol shape) : shape.root = symbol := by
  obtain ⟨_, _, rfl⟩ := h
  rfl

end ContextFree.Grammar
