import ContextFree.Derivation
import Mathlib.Order.Lattice.Nat
import Mathlib.Tactic.Lemma

/-!
# Rows of shapes

Shapes are nested through lists, so proofs about them go by `Shape.induction`, whose only
hypothesis at a node is the statement for every child. Heights and widths of a row are computed
from its end as well as from its front, which is how a tree is measured while its children are
read one after another. The parts of a shape are its subtrees, so what is said about every place
of a tree is said about its parts.
-/
namespace ContextFree.Shape

@[induction_eliminator] theorem induction {motive : Shape → Prop}
    (leaf : ∀ symbol, motive (leaf symbol))
    (node : ∀ symbol children, (∀ child ∈ children, motive child) →
      motive (node symbol children)) : ∀ shape, motive shape
  | .leaf symbol => leaf symbol
  | .node symbol children => node symbol children fun child _ => induction leaf node child

mutual

/-- The subtrees, each before those below it. The first one is the shape itself. -/
def parts : Shape → List Shape
  | leaf symbol => [leaf symbol]
  | node symbol children => node symbol children :: partsOfRow children

def partsOfRow : List Shape → List Shape
  | [] => []
  | shape :: shapes => shape.parts ++ partsOfRow shapes

end

lemma partsOfRow_eq (shapes : List Shape) : partsOfRow shapes = shapes.flatMap parts := by
  induction shapes with
  | nil => rfl
  | cons shape shapes ih => simp [partsOfRow, ih]

@[simp] theorem parts_leaf (symbol : Symbol) : (leaf symbol).parts = [leaf symbol] := by
  rw [parts]

@[simp] theorem parts_node (symbol : Symbol) (children : List Shape) :
    (node symbol children).parts = node symbol children :: children.flatMap parts := by
  rw [parts, partsOfRow_eq]

lemma mem_parts (shape : Shape) : shape ∈ shape.parts := by
  cases shape with
  | leaf symbol => simp
  | node symbol children => simp

@[simp] theorem tallest_append (shapes more : List Shape) :
    tallest (shapes ++ more) = max (tallest shapes) (tallest more) := by
  induction shapes with
  | nil => simp [tallest]
  | cons shape shapes ih => simp only [List.cons_append, tallest, ih, max_assoc]

@[simp] theorem tallest_singleton (shape : Shape) : tallest [shape] = shape.height := by
  simp [tallest]

@[simp] theorem widths_append (shapes more : List Shape) :
    widths (shapes ++ more) = widths shapes + widths more := by
  induction shapes with
  | nil => simp [widths]
  | cons shape shapes ih => simp only [List.cons_append, widths, ih]; omega

@[simp] theorem widths_singleton (shape : Shape) : widths [shape] = shape.width := by
  simp [widths]

lemma width_le_widths {shapes : List Shape} {shape : Shape} (h : shape ∈ shapes) :
    shape.width ≤ widths shapes := by
  induction shapes with
  | nil => cases h
  | cons first shapes ih =>
    rw [widths]
    rcases List.mem_cons.1 h with rfl | h
    · omega
    · have := ih h
      omega

theorem one_le_width (shape : Shape) : 1 ≤ shape.width := by
  induction shape with
  | leaf symbol => simp [width]
  | node symbol children ih =>
    cases children with
    | nil => simp [width]
    | cons child children =>
      have hchild := ih child List.mem_cons_self
      have hrow := width_le_widths (List.mem_cons_self (a := child) (l := children))
      simp only [width, List.isEmpty_cons]
      exact hchild.trans hrow

theorem width_node (symbol : Symbol) (children : List Shape) :
    (node symbol children).width = max (widths children) 1 := by
  cases children with
  | nil => simp [width, widths]
  | cons child children =>
    have hchild := one_le_width child
    have hrow := width_le_widths (List.mem_cons_self (a := child) (l := children))
    simp only [width, List.isEmpty_cons]
    exact (max_eq_left (hchild.trans hrow)).symm

theorem one_le_height (shape : Shape) : 1 ≤ shape.height := by
  cases shape with
  | leaf symbol => simp
  | node symbol children => rw [height]; omega

theorem two_le_height_node (symbol : Symbol) (children : List Shape) :
    2 ≤ (node symbol children).height := by
  rw [height]
  omega

end ContextFree.Shape

namespace ContextFree.Grammar

variable {g : Grammar} {shape : Shape}

mutual

/-- Checks a shape against a grammar. -/
def validates (g : Grammar) : Shape → Bool
  | .leaf symbol => !g.isNonterminal symbol
  | .node symbol children =>
    g.productions.elem ⟨symbol, children.map Shape.root⟩ && g.validatesRow children

def validatesRow (g : Grammar) : List Shape → Bool
  | [] => true
  | shape :: shapes => g.validates shape && g.validatesRow shapes

end

lemma validatesRow_iff {shapes : List Shape} :
    g.validatesRow shapes = true ↔ ∀ shape ∈ shapes, g.validates shape = true := by
  induction shapes with
  | nil => simp [validatesRow]
  | cons shape shapes ih => simp [validatesRow, ih]

theorem validates_iff : g.validates shape = true ↔ g.Valid shape := by
  induction shape with
  | leaf symbol =>
    rw [validates, Bool.not_eq_true', ← Bool.not_eq_true, isNonterminal_iff]
    exact ⟨.leaf symbol, Valid.terminal_of_leaf⟩
  | node symbol children ih =>
    rw [validates, Bool.and_eq_true, List.elem_iff, validatesRow_iff]
    constructor
    · rintro ⟨hproduction, hchildren⟩
      exact .node symbol children hproduction fun child hchild =>
        (ih child hchild).1 (hchildren child hchild)
    · intro h
      exact ⟨h.production_mem, fun child hchild => (ih child hchild).2 (h.of_mem hchild)⟩

instance : Decidable (g.Valid shape) := decidable_of_iff _ validates_iff

instance {symbol : Symbol} : Decidable (g.IsDerivation symbol shape) :=
  match shape with
  | .leaf _ => isFalse fun h => nomatch h.2
  | .node root children =>
    decidable_of_iff (g.Valid (.node root children) ∧ root = symbol) (by
      constructor
      · rintro ⟨hvalid, rfl⟩
        exact ⟨hvalid, children, rfl⟩
      · rintro ⟨hvalid, _, heq⟩
        exact ⟨hvalid, (Shape.node.inj heq).1⟩)

theorem Valid.terminal_of_mem_yield (h : g.Valid shape) :
    ∀ symbol ∈ shape.yield, symbol ∉ g.nonterminals := by
  induction h with
  | leaf symbol terminal => simpa using terminal
  | node symbol children _ _ ih =>
    intro leaf hleaf
    rw [Shape.yield_node, List.mem_flatMap] at hleaf
    obtain ⟨child, hchild, hleaf⟩ := hleaf
    exact ih child hchild leaf hleaf

theorem Valid.isDerivation (h : g.Valid shape) (hroot : shape.root ∈ g.nonterminals) :
    g.IsDerivation shape.root shape := by
  cases h with
  | leaf symbol terminal => exact absurd hroot terminal
  | node symbol children production valid => exact ⟨.node symbol children production valid, _, rfl⟩

lemma IsDerivation.mem_nonterminals {symbol : Symbol} (h : g.IsDerivation symbol shape) :
    symbol ∈ g.nonterminals := by
  obtain ⟨hvalid, children, rfl⟩ := h
  exact mem_nonterminals_iff.2 ⟨_, hvalid.production_mem⟩

end ContextFree.Grammar
