import ContextFree.Shape

/-!
# Nodes of trees

A node is a terminal leaf or a nonterminal with the nodes below it. A nonterminal carries the
measure and the digest of its subtree, so that both are known without walking it again.

The measure of a tree is the number of its levels, of its columns and of its leaves, and the
sentence it derives. That of a nonterminal follows from the measures of its children. A measure
whose counts leave the range of a machine word is a fault.

The shape of a node forgets names, measures and digests. A node is sound when the digests in it
are those of the shapes; then nodes of one shape have one digest.
-/
namespace ContextFree

/-- What is kept about a subtree: its number of levels, of columns and of leaves, and the
names of its leaves separated by spaces. -/
structure Measure where
  height : Nat
  width : Nat
  leaves : Nat
  sentence : String
  deriving DecidableEq

namespace Measure

def leaf (name : String) : Measure := ⟨1, 1, 1, name⟩

/-- The measure of an empty row of trees. An empty row is one level high. -/
def emptyRow : Measure := ⟨1, 0, 0, ""⟩

/-- Two sentences side by side. An empty one leaves no space behind. -/
def joinSentences (left right : String) : String :=
  if right.isEmpty then left
  else if left.isEmpty then right
  else left ++ " " ++ right

/-- The measure of a row followed by one more tree. -/
def append (row tree : Measure) : Except Fault Measure := do
  let width ← Word.add row.width tree.width
  let leaves ← Word.add row.leaves tree.leaves
  return ⟨max row.height tree.height, width, leaves, joinSentences row.sentence tree.sentence⟩

/-- The measure of a nonterminal above a row of trees: one level more, and at least one
column. -/
def above (row : Measure) : Except Fault Measure := do
  let height ← Word.add row.height 1
  return { row with height, width := max row.width 1 }

def node (children : List Measure) : Except Fault Measure := do
  let row ← children.foldlM append emptyRow
  row.above

end Measure

namespace Tree

/-- A node with everything below it. -/
inductive Node
  | terminal (symbol : Symbol) (name : String)
  | nonterminal (symbol : Symbol) (children : List Node) (measure : Measure) (digest : Nat)

namespace Node

def symbol : Node → Symbol
  | terminal symbol _ => symbol
  | nonterminal symbol _ _ _ => symbol

def isTerminal : Node → Bool
  | terminal _ _ => true
  | nonterminal _ _ _ _ => false

def children : Node → List Node
  | terminal _ _ => []
  | nonterminal _ children _ _ => children

def measure : Node → Measure
  | terminal _ name => .leaf name
  | nonterminal _ _ measure _ => measure

def digest : Node → Nat
  | terminal symbol _ => Digest.leaf symbol
  | nonterminal _ _ _ digest => digest

mutual

/-- The node without names, measures and digests. -/
def shape : Node → Shape
  | terminal symbol _ => .leaf symbol
  | nonterminal symbol children _ _ => .node symbol (shapes children)

def shapes : List Node → List Shape
  | [] => []
  | node :: nodes => node.shape :: shapes nodes

end

@[simp] theorem shapes_eq_map (nodes : List Node) : shapes nodes = nodes.map shape := by
  induction nodes with
  | nil => rfl
  | cons node nodes ih => simp [shapes, ih]

@[simp] theorem shape_terminal (symbol : Symbol) (name : String) :
    (terminal symbol name).shape = .leaf symbol := rfl

@[simp] theorem shape_nonterminal (symbol : Symbol) (children : List Node) (measure : Measure)
    (digest : Nat) :
    (nonterminal symbol children measure digest).shape = .node symbol (children.map shape) := by
  rw [shape, shapes_eq_map]

/-- Every digest is made from the symbol and the digests right below. -/
inductive Sound : Node → Prop
  | terminal (symbol : Symbol) (name : String) : Sound (terminal symbol name)
  | nonterminal (symbol : Symbol) (children : List Node) (measure : Measure)
      (sound : ∀ child ∈ children, Sound child) :
      Sound (nonterminal symbol children measure (Digest.node symbol (children.map digest)))

theorem Sound.of_mem {node child : Node} (h : node.Sound) (mem : child ∈ node.children) :
    child.Sound := by
  cases h with
  | terminal => nomatch mem
  | nonterminal _ _ _ sound => exact sound child mem

theorem Sound.digest_eq {node : Node} (h : node.Sound) : node.digest = node.shape.digest := by
  induction h with
  | terminal => rfl
  | nonterminal symbol children measure _ ih =>
    have hmap : children.map digest = children.map (Shape.digest ∘ shape) := List.map_congr_left ih
    rw [shape_nonterminal, Shape.digest_node, List.map_map, ← hmap]
    rfl

end Node

end Tree

end ContextFree
