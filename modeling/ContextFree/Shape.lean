import ContextFree.Symbol

/-!
# Shapes of trees

A shape is a finite ordered tree of symbols. A leaf and a node without children differ, even
when they carry the same symbol: the leaf stands for a terminal, the node for a nonterminal
that derives the empty word. Height, width and leaf count are recursive functions of the
shape, in unbounded arithmetic.

A digest is a number that stands for a value: equal values have equal digests, so values of
different digest differ. The converse may fail, and nothing relies on it; a good spread of
digests only makes comparisons short. Digests stay below `2 ^ 31`, where arithmetic is cheap.
The digest of a shape is made from its symbol and the digests of its children, so it is known
as soon as theirs are.
-/
namespace ContextFree

inductive Shape
  | leaf (symbol : Symbol)
  | node (symbol : Symbol) (children : List Shape)

namespace Shape

def root : Shape → Symbol
  | leaf symbol => symbol
  | node symbol _ => symbol

mutual

/-- The symbols of the leaves from left to right. -/
def yield : Shape → List Symbol
  | leaf symbol => [symbol]
  | node _ children => yields children

def yields : List Shape → List Symbol
  | [] => []
  | shape :: shapes => shape.yield ++ yields shapes

end

mutual

/-- The number of levels. A node without children counts as if it had a single leaf. -/
def height : Shape → Nat
  | leaf _ => 1
  | node _ children => max 1 (tallest children) + 1

def tallest : List Shape → Nat
  | [] => 0
  | shape :: shapes => max shape.height (tallest shapes)

end

mutual

/-- The number of places without children: leaves and empty nodes. -/
def width : Shape → Nat
  | leaf _ => 1
  | node _ children => if children.isEmpty then 1 else widths children

def widths : List Shape → Nat
  | [] => 0
  | shape :: shapes => shape.width + widths shapes

end

def leafCount (shape : Shape) : Nat := shape.yield.length

theorem yields_eq (shapes : List Shape) : yields shapes = shapes.flatMap yield := by
  induction shapes with
  | nil => rfl
  | cons shape shapes ih => simp [yields, ih]

@[simp] theorem root_leaf (symbol : Symbol) : (leaf symbol).root = symbol := rfl

@[simp] theorem root_node (symbol : Symbol) (children : List Shape) :
    (node symbol children).root = symbol := rfl

@[simp] theorem yield_leaf (symbol : Symbol) : (leaf symbol).yield = [symbol] := rfl

@[simp] theorem yield_node (symbol : Symbol) (children : List Shape) :
    (node symbol children).yield = children.flatMap yield := by
  rw [yield, yields_eq]

@[simp] theorem height_leaf (symbol : Symbol) : (leaf symbol).height = 1 := rfl

theorem tallest_le_iff {shapes : List Shape} {bound : Nat} :
    tallest shapes ≤ bound ↔ ∀ shape ∈ shapes, shape.height ≤ bound := by
  induction shapes with
  | nil => simp [tallest]
  | cons shape shapes ih => rw [tallest, Nat.max_le, ih, List.forall_mem_cons]

theorem height_node_le_iff {symbol : Symbol} {children : List Shape} {bound : Nat} :
    (node symbol children).height ≤ bound + 1 ↔
      1 ≤ bound ∧ ∀ child ∈ children, child.height ≤ bound := by
  rw [height, ← tallest_le_iff]
  omega

end Shape

class HasDigest (α : Type) [BEq α] where
  digest : α → Nat
  digest_congr : ∀ {a b : α}, (a == b) = true → digest a = digest b

namespace Digest

/-- Digests are remainders modulo this prime number. -/
def modulus : Nat := 2147483647

/-- Stirs a number into a digest. Squaring keeps sums of digests from cancelling out. -/
def mix (digest n : Nat) : Nat :=
  let stirred := (digest * 1103515245 + n + 12345) % modulus
  (stirred * stirred + digest) % modulus

def leaf (symbol : Symbol) : Nat := mix 1 symbol.id

/-- The digest of a node above children with the given digests. -/
def node (symbol : Symbol) (children : List Nat) : Nat :=
  children.foldl mix (mix (mix 2 symbol.id) children.length)

end Digest

namespace Shape

mutual

def digest : Shape → Nat
  | leaf symbol => Digest.leaf symbol
  | node symbol children => Digest.node symbol (digests children)

def digests : List Shape → List Nat
  | [] => []
  | shape :: shapes => shape.digest :: digests shapes

end

@[simp] theorem digests_eq_map (shapes : List Shape) : digests shapes = shapes.map digest := by
  induction shapes with
  | nil => rfl
  | cons shape shapes ih => simp [digests, ih]

@[simp] theorem digest_leaf (symbol : Symbol) : (leaf symbol).digest = Digest.leaf symbol := rfl

@[simp] theorem digest_node (symbol : Symbol) (children : List Shape) :
    (node symbol children).digest = Digest.node symbol (children.map digest) := by
  rw [digest, digests_eq_map]

end Shape

end ContextFree
