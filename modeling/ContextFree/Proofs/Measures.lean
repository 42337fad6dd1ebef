import ContextFree.Proofs.Outcomes
import ContextFree.Proofs.Shapes
import ContextFree.Tree.Order
import Mathlib.Data.List.Count
import Mathlib.Data.List.Nodup

/-!
# Measures of built trees

A tree that was built from leaves by `Tree.node` carries the measure of its shape: height, width
and leaf count are the recursive ones, and its sentence is made of the names of its leaves that
are not empty, separated by spaces. The measure is computed while the children are read from
left to right, so the statement for a node follows from one for a row of children that grows at
its end.

Trees are compared by shape, so a row has no two equal trees when the shapes in it are distinct.
In such a row a tree does not occur twice.
-/
namespace ContextFree

namespace Tree

namespace Node

mutual

/-- The names of the leaves from left to right. -/
def names : Node → List String
  | terminal _ name => [name]
  | nonterminal _ children _ _ => namesOfRow children

def namesOfRow : List Node → List String
  | [] => []
  | node :: nodes => node.names ++ namesOfRow nodes

end

lemma namesOfRow_eq (nodes : List Node) : namesOfRow nodes = nodes.flatMap names := by
  induction nodes with
  | nil => rfl
  | cons node nodes ih => simp [namesOfRow, ih]

end Node

/-- The names of the leaves from left to right. -/
def names (tree : Tree) : List String := tree.top.names

@[simp] theorem names_terminal (symbol : Symbol) (name : String) :
    (terminal symbol name).names = [name] := rfl

@[simp] theorem names_nonterminal (symbol : Symbol) (children : List Tree) (measure : Measure) :
    (nonterminal symbol children measure).names = children.flatMap names := by
  simp only [names, nonterminal, Node.names, Node.namesOfRow_eq, List.flatMap_map]
  rfl

lemma names_of_node {symbol : Symbol} {children : List Tree} {tree : Tree}
    (h : node symbol children = .ok tree) : tree.names = children.flatMap names := by
  obtain ⟨measure, _, rfl⟩ := node_eq_ok_iff.1 h
  exact names_nonterminal symbol children measure

/-- Trees that come from leaves by `Tree.node`. -/
inductive Built : Tree → Prop
  | terminal (symbol : Symbol) (name : String) : Built (.terminal symbol name)
  | node {symbol : Symbol} {children : List Tree} {tree : Tree}
      (children_built : ∀ child ∈ children, Built child)
      (node_ok : Tree.node symbol children = .ok tree) : Built tree

end Tree

namespace Measure

/-- The words that are not empty, separated by spaces. -/
def phrase (words : List String) : String :=
  " ".intercalate (words.filter fun word => !word.isEmpty)

@[simp] theorem phrase_nil : phrase [] = "" := by simp [phrase]

@[simp] theorem phrase_singleton (word : String) : phrase [word] = word := by
  by_cases h : word = ""
  · simp [phrase, h]
  · simp [phrase, h]

/-- Empty words leave no trace, so a missing word may as well be an empty one. -/
lemma phrase_map_getD {α : Type} (f : α → Option String) (as : List α) :
    phrase (as.map fun a => (f a).getD "") = phrase (as.filterMap f) := by
  unfold phrase
  congr 1
  induction as with
  | nil => rfl
  | cons a as ih =>
    rw [List.map_cons, List.filter_cons, ih]
    cases h : f a with
    | none => simp [h]
    | some word => simp [h, List.filter_cons]

lemma phrase_eq_empty_iff {words : List String} :
    phrase words = "" ↔ words.filter (fun word => !word.isEmpty) = [] := by
  cases h : words.filter fun word => !word.isEmpty with
  | nil => simp [phrase, h]
  | cons word rest =>
    have hword : word ≠ "" := by
      have := (List.mem_filter.1 (h ▸ List.mem_cons_self : word ∈ words.filter _)).2
      simpa using this
    cases rest with
    | nil => simp [phrase, h, hword]
    | cons next rest => simp [phrase, h, hword]

/-- Phrases side by side are joined like sentences. -/
theorem phrase_append (words more : List String) :
    phrase (words ++ more) = joinSentences (phrase words) (phrase more) := by
  unfold joinSentences
  simp only [String.isEmpty_iff, phrase_eq_empty_iff]
  split
  · next hmore => simp [phrase, hmore]
  · next hmore =>
    split
    · next hwords => simp [phrase, hwords]
    · next hwords =>
      simp only [phrase, List.filter_append]
      exact String.intercalate_append_of_ne_nil hwords hmore

/-- A measure tells the truth about a shape whose leaves have the given names. -/
structure Describes (m : Measure) (shape : Shape) (names : List String) : Prop where
  height : m.height = shape.height
  width : m.width = shape.width
  leaves : m.leaves = shape.leafCount
  sentence : m.sentence = phrase names

/-- A measure tells the truth about a row of shapes. An empty row is one level high. -/
structure DescribesRow (m : Measure) (shapes : List Shape) (names : List String) : Prop where
  height : m.height = max 1 (Shape.tallest shapes)
  width : m.width = Shape.widths shapes
  leaves : m.leaves = (shapes.flatMap Shape.yield).length
  sentence : m.sentence = phrase names

lemma describesRow_emptyRow : emptyRow.DescribesRow [] [] where
  height := rfl
  width := rfl
  leaves := rfl
  sentence := phrase_nil.symm

lemma append_eq_ok {row tree next : Measure} (h : row.append tree = .ok next) :
    next = ⟨max row.height tree.height, row.width + tree.width, row.leaves + tree.leaves,
      joinSentences row.sentence tree.sentence⟩ := by
  obtain ⟨width, hwidth, h⟩ := bind_eq_ok_iff.1 h
  obtain ⟨leaves, hleaves, h⟩ := bind_eq_ok_iff.1 h
  obtain ⟨_, rfl⟩ := Word.add_eq_ok_iff.1 hwidth
  obtain ⟨_, rfl⟩ := Word.add_eq_ok_iff.1 hleaves
  exact (Except.ok.inj h).symm

lemma above_eq_ok {row next : Measure} (h : row.above = .ok next) :
    next = { row with height := row.height + 1, width := max row.width 1 } := by
  obtain ⟨height, hheight, h⟩ := bind_eq_ok_iff.1 h
  obtain ⟨_, rfl⟩ := Word.add_eq_ok_iff.1 hheight
  exact (Except.ok.inj h).symm

lemma DescribesRow.append {row tree next : Measure} {shapes : List Shape} {shape : Shape}
    {names more : List String} (hrow : row.DescribesRow shapes names)
    (htree : tree.Describes shape more) (h : row.append tree = .ok next) :
    next.DescribesRow (shapes ++ [shape]) (names ++ more) := by
  rw [append_eq_ok h]
  constructor
  · simp only [Shape.tallest_append, Shape.tallest_singleton, hrow.height, htree.height]
    omega
  · simp only [Shape.widths_append, Shape.widths_singleton, hrow.width, htree.width]
  · simp [hrow.leaves, htree.leaves, Shape.leafCount]
  · rw [phrase_append, hrow.sentence, htree.sentence]

lemma DescribesRow.above {row next : Measure} {shapes : List Shape} {names : List String}
    (hrow : row.DescribesRow shapes names) (h : row.above = .ok next) (symbol : Symbol) :
    next.Describes (.node symbol shapes) names := by
  rw [above_eq_ok h]
  constructor
  · simp only [Shape.height, hrow.height]
  · simp only [Shape.width_node, hrow.width]
  · simp only [Shape.leafCount, Shape.yield_node, hrow.leaves]
  · exact hrow.sentence

/-- Reading the trees of a row one after another keeps its measure true. -/
lemma describesRow_foldlM {trees : List Tree} {row last : Measure} {shapes : List Shape}
    {names : List String} (hrow : row.DescribesRow shapes names)
    (htrees : ∀ tree ∈ trees, tree.measure.Describes tree.shape tree.names)
    (h : (trees.map Tree.measure).foldlM Measure.append row = .ok last) :
    last.DescribesRow (shapes ++ trees.map Tree.shape) (names ++ trees.flatMap Tree.names) := by
  induction trees generalizing row shapes names with
  | nil =>
    have hlast : row = last := Except.ok.inj h
    simpa [hlast] using hrow
  | cons tree trees ih =>
    obtain ⟨htree, htrees⟩ := List.forall_mem_cons.1 htrees
    rw [List.map_cons, List.foldlM_cons] at h
    obtain ⟨next, hnext, h⟩ := bind_eq_ok_iff.1 h
    have hmore := ih (hrow.append htree hnext) htrees h
    simpa only [List.append_assoc, List.singleton_append, List.map_cons, List.flatMap_cons]
      using hmore

end Measure

namespace Tree

theorem Built.describes {tree : Tree} (h : tree.Built) :
    tree.measure.Describes tree.shape tree.names := by
  induction h with
  | terminal symbol name => exact ⟨rfl, rfl, rfl, (Measure.phrase_singleton name).symm⟩
  | @node symbol children tree _ hnode ih =>
    obtain ⟨measure, hmeasure, rfl⟩ := node_eq_ok_iff.1 hnode
    obtain ⟨row, hrow, habove⟩ := bind_eq_ok_iff.1 hmeasure
    have hdescribes := Measure.describesRow_foldlM Measure.describesRow_emptyRow ih hrow
    simpa using hdescribes.above habove symbol

theorem pairwise_iff_nodup {trees : List Tree} :
    trees.Pairwise (fun a b => (a == b) = false) ↔ (trees.map shape).Nodup := by
  simp only [List.Nodup, List.pairwise_map, ne_eq, ← beq_iff, Bool.not_eq_true]

theorem count_eq_one {trees : List Tree} {tree : Tree} (hnodup : (trees.map shape).Nodup)
    (h : tree.shape ∈ trees.map shape) : trees.count tree = 1 := by
  classical
  have hcount := List.count_eq_one_of_mem hnodup h
  rw [List.count, List.countP_map] at hcount
  rw [List.count, ← hcount]
  refine List.countP_congr fun other _ => ?_
  simp

end Tree

/-- Rows that look the same element by element are equal when no two of their elements are
confused. -/
lemma eq_of_map_eq {α β : Type} {f : α → β} {as bs : List α}
    (h : ∀ a ∈ as, ∀ b ∈ bs, f a = f b → a = b) (hmap : as.map f = bs.map f) : as = bs := by
  induction as generalizing bs with
  | nil => exact (List.map_eq_nil_iff.1 hmap.symm).symm
  | cons a as ih =>
    cases bs with
    | nil => cases hmap
    | cons b bs =>
      obtain ⟨hhead, htail⟩ := List.cons.inj hmap
      have hrest : as = bs := ih (fun a' ha' b' hb' =>
        h a' (List.mem_cons_of_mem a ha') b' (List.mem_cons_of_mem b hb')) htail
      rw [h a List.mem_cons_self b List.mem_cons_self hhead, hrest]

namespace Grammar

/-- Trees that come from the leaves of a grammar by `Tree.node`. -/
inductive Grows (g : Grammar) : Tree → Prop
  | leaf (symbol : Symbol) : Grows g (g.leaf symbol)
  | node {symbol : Symbol} {children : List Tree} {tree : Tree}
      (children_grown : ∀ child ∈ children, Grows g child)
      (node_ok : Tree.node symbol children = .ok tree) : Grows g tree

namespace Grows

variable {g : Grammar} {tree : Tree}

lemma built (h : g.Grows tree) : tree.Built := by
  induction h with
  | leaf symbol => exact .terminal symbol _
  | node _ hnode ih => exact .node ih hnode

/-- The names of the leaves are those that the grammar has for the symbols of the shape. -/
lemma names_eq (h : g.Grows tree) : tree.names = tree.shape.yield.map (g.nameOr "") := by
  induction h with
  | leaf symbol => rfl
  | node _ hnode ih =>
    rw [Tree.names_of_node hnode, Tree.shape_of_node hnode, Shape.yield_node, List.flatMap_map,
      List.map_flatMap]
    exact List.flatMap_congr ih

theorem height_eq (h : g.Grows tree) : tree.height = tree.shape.height := h.built.describes.height

theorem sentence_eq (h : g.Grows tree) :
    tree.sentence = Measure.phrase (tree.shape.yield.map (g.nameOr "")) := by
  rw [← h.names_eq]
  exact h.built.describes.sentence

/-- The shape decides everything else about a tree that was grown from a grammar. -/
theorem eq_of_shape_eq {other : Tree} (h : g.Grows tree) (hother : g.Grows other)
    (hshape : tree.shape = other.shape) : tree = other := by
  induction h generalizing other with
  | leaf symbol =>
    cases hother with
    | leaf symbol' =>
      obtain rfl : symbol = symbol' := by simpa using hshape
      rfl
    | node _ hnode => simp [Tree.shape_of_node hnode] at hshape
  | @node symbol children tree _ hnode ih =>
    cases hother with
    | leaf => simp [Tree.shape_of_node hnode] at hshape
    | @node symbol' children' _ hgrown hnode' =>
      rw [Tree.shape_of_node hnode, Tree.shape_of_node hnode'] at hshape
      obtain ⟨rfl, hshapes⟩ := Shape.node.inj hshape
      have hchildren : children = children' :=
        eq_of_map_eq (fun a ha b hb => ih a ha (hgrown b hb)) hshapes
      rw [hchildren] at hnode
      exact Except.ok.inj (hnode.symm.trans hnode')

end Grows

/-- What is in a row of grown trees is known from the shapes in it. -/
lemma mem_iff_of_grows {g : Grammar} {trees : List Tree} (h : ∀ tree ∈ trees, g.Grows tree)
    {tree : Tree} : tree ∈ trees ↔ g.Grows tree ∧ tree.shape ∈ trees.map Tree.shape := by
  constructor
  · intro hmem
    exact ⟨h tree hmem, List.mem_map_of_mem hmem⟩
  · intro ⟨hgrows, hshape⟩
    obtain ⟨other, hother, hsame⟩ := List.mem_map.1 hshape
    rwa [← (h other hother).eq_of_shape_eq hgrows hsame]

end Grammar

end ContextFree
