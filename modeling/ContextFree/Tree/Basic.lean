import ContextFree.Grammar.Basic
import ContextFree.Tree.Node

/-!
# Derivation trees

A tree is a terminal leaf or a nonterminal with children. Every nonterminal carries the measure
and the digest of its subtree, computed once when it is built by `Tree.node`, so trees that
share subtrees stay cheap however wide they are. The type admits sound digests only.

The shape of a tree forgets names and measures. Two trees are the same derivation when they
have the same shape.
-/
namespace ContextFree

/-- A derivation tree, given by its topmost node. -/
structure Tree where
  top : Tree.Node
  sound : top.Sound

namespace Tree

def symbol (tree : Tree) : Symbol := tree.top.symbol

def isTerminal (tree : Tree) : Bool := tree.top.isTerminal

def children (tree : Tree) : List Tree :=
  tree.top.children.pmap Tree.mk fun _ mem => tree.sound.of_mem mem

def measure (tree : Tree) : Measure := tree.top.measure

def height (tree : Tree) : Nat := tree.measure.height

/-- The number of columns, at least one. -/
def width (tree : Tree) : Nat := tree.measure.width

def leaves (tree : Tree) : Nat := tree.measure.leaves

/-- The derived sentence: the names of the leaves separated by spaces. -/
def sentence (tree : Tree) : String := tree.measure.sentence

/-- The tree without names and measures. -/
def shape (tree : Tree) : Shape := tree.top.shape

def digest (tree : Tree) : Nat := tree.top.digest

def terminal (symbol : Symbol) (name : String) : Tree := ⟨.terminal symbol name, .terminal ..⟩

/-- A nonterminal above a row of trees, with a given measure. -/
def nonterminal (symbol : Symbol) (children : List Tree) (measure : Measure) : Tree where
  top := .nonterminal symbol (children.map top) measure
    (Digest.node symbol ((children.map top).map Node.digest))
  sound := .nonterminal symbol (children.map top) measure (by
    simp only [List.mem_map]
    rintro _ ⟨child, _, rfl⟩
    exact child.sound)

/-- A nonterminal above a row of trees. Without children it derives the empty word. -/
def node (symbol : Symbol) (children : List Tree) : Except Fault Tree := do
  let measure ← Measure.node (children.map measure)
  return nonterminal symbol children measure

/-- Repeats `tree := node symbol [tree, ..., tree]` with `arity` copies. -/
def grow (symbol : Symbol) (arity : Nat) : (times : Nat) → (tree : Tree) → Except Fault Tree
  | 0, tree => .ok tree
  | times + 1, tree => do
    let tree ← node symbol (List.replicate arity tree)
    grow symbol arity times tree

@[ext] theorem ext {a b : Tree} (top : a.top = b.top) : a = b := by
  cases a; cases b; cases top; rfl

theorem map_top_pmap {nodes : List Node} (sound : ∀ node ∈ nodes, node.Sound) :
    (nodes.pmap Tree.mk sound).map top = nodes := by
  simp [List.map_pmap]

@[simp] theorem symbol_terminal (symbol : Symbol) (name : String) :
    (terminal symbol name).symbol = symbol := rfl

@[simp] theorem symbol_nonterminal (symbol : Symbol) (children : List Tree) (measure : Measure) :
    (nonterminal symbol children measure).symbol = symbol := rfl

@[simp] theorem children_terminal (symbol : Symbol) (name : String) :
    (terminal symbol name).children = [] := rfl

@[simp] theorem children_nonterminal (symbol : Symbol) (children : List Tree)
    (measure : Measure) : (nonterminal symbol children measure).children = children := by
  simp only [Tree.children, nonterminal, Node.children, List.pmap_map]
  exact (List.pmap_eq_map _).trans (List.map_id children)

@[simp] theorem measure_terminal (symbol : Symbol) (name : String) :
    (terminal symbol name).measure = .leaf name := rfl

@[simp] theorem measure_nonterminal (symbol : Symbol) (children : List Tree)
    (measure : Measure) : (nonterminal symbol children measure).measure = measure := rfl

@[simp] theorem shape_terminal (symbol : Symbol) (name : String) :
    (terminal symbol name).shape = .leaf symbol := rfl

@[simp] theorem shape_nonterminal (symbol : Symbol) (children : List Tree) (measure : Measure) :
    (nonterminal symbol children measure).shape = .node symbol (children.map shape) := by
  simp only [shape, nonterminal, Node.shape_nonterminal, List.map_map]
  rfl

theorem eq_terminal_or_nonterminal (tree : Tree) :
    (∃ name, tree = terminal tree.symbol name) ∨
      tree = nonterminal tree.symbol tree.children tree.measure := by
  obtain ⟨top, sound⟩ := tree
  cases sound with
  | terminal symbol name => exact .inl ⟨name, rfl⟩
  | nonterminal symbol children measure sound =>
    right
    ext
    have hchildren := map_top_pmap sound
    simp only [nonterminal, Tree.children, Node.children, hchildren]
    rfl

@[simp] theorem root_shape (tree : Tree) : tree.shape.root = tree.symbol := by
  cases tree.eq_terminal_or_nonterminal with
  | inl h => obtain ⟨name, h⟩ := h; rw [h]; rfl
  | inr h => rw [h, shape_nonterminal]; rfl

theorem digest_eq (tree : Tree) : tree.digest = tree.shape.digest := tree.sound.digest_eq

theorem node_eq_ok_iff {symbol : Symbol} {children : List Tree} {tree : Tree} :
    node symbol children = .ok tree ↔ ∃ measure,
      Measure.node (children.map Tree.measure) = .ok measure ∧
        tree = nonterminal symbol children measure := by
  unfold node
  cases Measure.node (children.map Tree.measure) with
  | error => exact ⟨fun h => (nomatch h), fun ⟨_, h, _⟩ => (nomatch h)⟩
  | ok measure =>
    constructor
    · intro h
      exact ⟨measure, rfl, (Except.ok.inj h).symm⟩
    · rintro ⟨_, h, rfl⟩
      rw [← Except.ok.inj h]
      rfl

theorem shape_of_node {symbol : Symbol} {children : List Tree} {tree : Tree}
    (h : node symbol children = .ok tree) : tree.shape = .node symbol (children.map shape) := by
  obtain ⟨measure, _, rfl⟩ := node_eq_ok_iff.1 h
  exact shape_nonterminal symbol children measure

end Tree

namespace Grammar

/-- The leaf of a symbol. A symbol without a name gets the empty one. -/
def leaf (g : Grammar) (symbol : Symbol) : Tree := .terminal symbol (g.nameOr "" symbol)

@[simp] theorem shape_leaf (g : Grammar) (symbol : Symbol) :
    (g.leaf symbol).shape = .leaf symbol := rfl

end Grammar

end ContextFree
