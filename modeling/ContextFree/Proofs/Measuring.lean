import ContextFree.Proofs.Overflow

/-!
# What the measure of a tree counts

Leaves and width are sums over a row of children, so they count parts of the shape: the leaves,
and all parts without children. A measure is built from checked sums, so a tree that could be built
is within the range of machine words, and a node above built trees is refused exactly when its
shape is too wide or too high. The sum of the leaves is never what fails, for when it is taken the
width has been added up already, and there are no more leaves than columns.
-/
namespace ContextFree

namespace Shape

def isLeaf : Shape → Bool
  | leaf _ => true
  | node _ _ => false

/-- Whether nothing is below the root: a leaf, or a node without children. -/
def isBare : Shape → Bool
  | leaf _ => true
  | node _ children => children.isEmpty

theorem leafCount_eq_countP (shape : Shape) : shape.leafCount = shape.parts.countP isLeaf := by
  induction shape with
  | leaf symbol => rfl
  | node symbol children ih =>
    rw [leafCount, yield_node, List.length_flatMap, parts_node,
      List.countP_cons_of_neg (by simp [isLeaf]), List.countP_flatMap]
    exact congrArg List.sum (List.map_congr_left ih)

lemma widths_eq_countP {shapes : List Shape}
    (h : ∀ shape ∈ shapes, shape.width = shape.parts.countP isBare) :
    widths shapes = (shapes.flatMap parts).countP isBare := by
  induction shapes with
  | nil => rfl
  | cons shape shapes ih =>
    obtain ⟨hshape, hshapes⟩ := List.forall_mem_cons.1 h
    rw [widths, hshape, ih hshapes, List.flatMap_cons, List.countP_append]

theorem width_eq_countP (shape : Shape) : shape.width = shape.parts.countP isBare := by
  induction shape with
  | leaf symbol => rfl
  | node symbol children ih =>
    cases children with
    | nil => simp [width, isBare]
    | cons child children =>
      rw [width, List.isEmpty_cons, if_neg Bool.false_ne_true, widths_eq_countP ih, parts_node,
        List.countP_cons_of_neg (by simp [isBare])]

end Shape

namespace Measure

lemma width_le_of_append {row tree next : Measure} (h : row.append tree = .ok next) :
    next.width ≤ Word.largest := by
  obtain ⟨width, hwidth, h⟩ := bind_eq_ok_iff.1 h
  obtain ⟨leaves, _, h⟩ := bind_eq_ok_iff.1 h
  obtain ⟨hle, rfl⟩ := Word.add_eq_ok_iff.1 hwidth
  rwa [← Except.ok.inj h]

/-- A row that could be measured is not too wide. -/
lemma width_le_of_foldlM {measures : List Measure} {row last : Measure}
    (hrow : row.width ≤ Word.largest) (h : measures.foldlM append row = .ok last) :
    last.width ≤ Word.largest := by
  induction measures generalizing row with
  | nil => rwa [← Except.ok.inj h]
  | cons tree measures ih =>
    rw [List.foldlM_cons] at h
    obtain ⟨next, hnext, h⟩ := bind_eq_ok_iff.1 h
    exact ih (width_le_of_append hnext) h

lemma le_largest_of_node {children : List Measure} {measure : Measure}
    (h : node children = .ok measure) :
    measure.width ≤ Word.largest ∧ measure.height ≤ Word.largest := by
  obtain ⟨row, hrow, habove⟩ := bind_eq_ok_iff.1 h
  obtain ⟨height, hheight, habove⟩ := bind_eq_ok_iff.1 habove
  obtain ⟨hle, rfl⟩ := Word.add_eq_ok_iff.1 hheight
  have hwidth := width_le_of_foldlM (Nat.zero_le Word.largest) hrow
  rw [← Except.ok.inj habove]
  exact ⟨max_le hwidth (by decide), hle⟩

/-- When the columns of a row and of one more tree can be added, the leaves can be as well. -/
lemma DescribesRow.exists_leaves {row tree : Measure} {shapes : List Shape} {shape : Shape}
    {names more : List String} (hrow : row.DescribesRow shapes names)
    (htree : tree.Describes shape more) {width : ℕ}
    (hwidth : Word.add row.width tree.width = .ok width) :
    ∃ leaves, Word.add row.leaves tree.leaves = .ok leaves := by
  obtain ⟨hle, -⟩ := Word.add_eq_ok_iff.1 hwidth
  have hshapes : row.leaves ≤ row.width := by
    rw [hrow.leaves, hrow.width]
    exact Shape.length_yields_le_widths fun shape _ => shape.leafCount_le_width
  have hshape : tree.leaves ≤ tree.width := by
    rw [htree.leaves, htree.width]
    exact shape.leafCount_le_width
  exact ⟨_, Word.add_eq_ok_iff.2 ⟨by omega, rfl⟩⟩

end Measure

namespace Tree

variable {symbol : Symbol} {children : List Tree}

/-- A node above built trees is refused exactly when it is too wide or too high. -/
theorem node_eq_error_iff (h : ∀ child ∈ children, child.Built) :
    (∃ fault, node symbol children = .error fault) ↔
      (Shape.node symbol (children.map shape)).Oversized := by
  constructor
  · rintro ⟨fault, hfault⟩
    exact (oversized_of_node h hfault).2
  · intro hlarge
    cases hnode : node symbol children with
    | error fault => exact ⟨fault, rfl⟩
    | ok tree =>
      obtain ⟨measure, hmeasure, rfl⟩ := node_eq_ok_iff.1 hnode
      have hdescribes := (Built.node h hnode).describes
      obtain ⟨hwidth, hheight⟩ := Measure.le_largest_of_node hmeasure
      rw [shape_nonterminal, measure_nonterminal] at hdescribes
      rw [Shape.Oversized, ← hdescribes.width, ← hdescribes.height] at hlarge
      omega

/-- The measure of a built tree says what a walk through the tree would count. Nodes are refused
exactly when their width or their height is no machine word, and the sum of the leaves never is
what fails. -/
theorem measure_of_built :
    (∀ tree : Tree, tree.Built →
      tree.leaves = tree.shape.parts.countP Shape.isLeaf ∧
      tree.width = tree.shape.parts.countP Shape.isBare ∧
      tree.height = tree.shape.height ∧
      tree.leaves ≤ tree.width ∧ 1 ≤ tree.width ∧
      tree.sentence = " ".intercalate (tree.names.filter fun name => !name.isEmpty)) ∧
    (∀ (symbol : Symbol) (children : List Tree), (∀ child ∈ children, child.Built) →
      ((∃ fault, node symbol children = .error fault) ↔
        Word.largest < (Shape.node symbol (children.map shape)).parts.countP Shape.isBare ∨
        Word.largest < (Shape.node symbol (children.map shape)).height) ∧
      (∀ fault, node symbol children = .error fault → fault = .addOverflow) ∧
      (∀ before child after row width, children = before ++ child :: after →
        (before.map measure).foldlM Measure.append .emptyRow = .ok row →
        Word.add row.width child.width = .ok width →
        ∃ leaves, Word.add row.leaves child.leaves = .ok leaves)) := by
  constructor
  · intro tree hbuilt
    obtain ⟨hheight, hwidth, hleaves, hsentence⟩ := hbuilt.describes
    refine ⟨hleaves.trans tree.shape.leafCount_eq_countP, hwidth.trans tree.shape.width_eq_countP,
      hheight, ?_, ?_, hsentence⟩
    · exact hleaves.trans_le (tree.shape.leafCount_le_width.trans_eq hwidth.symm)
    · exact tree.shape.one_le_width.trans_eq hwidth.symm
  · intro symbol children hchildren
    refine ⟨?_, fun fault hfault => (oversized_of_node hchildren hfault).1, ?_⟩
    · rw [node_eq_error_iff hchildren, Shape.Oversized, lt_max_iff, Shape.width_eq_countP]
    · rintro before child after row width rfl hrow hwidth
      obtain ⟨hbefore, hrest⟩ := List.forall_mem_append.1 hchildren
      have hdescribes := Measure.describesRow_foldlM Measure.describesRow_emptyRow
        (fun tree htree => (hbefore tree htree).describes) hrow
      exact hdescribes.exists_leaves (hrest child List.mem_cons_self).describes hwidth

lemma Built.grow {arity times : ℕ} {tree grown : Tree} (hbuilt : tree.Built)
    (h : Tree.grow symbol arity times tree = .ok grown) : grown.Built := by
  induction times generalizing tree with
  | zero => rwa [← Except.ok.inj h]
  | succ times ih =>
    obtain ⟨next, hnext, h⟩ := bind_eq_ok_iff.1 h
    exact ih (.node (fun child hchild => List.eq_of_mem_replicate hchild ▸ hbuilt) hnext) h

/-- Leaves without a name are counted and leave no space in the sentence, and a node without
children is a column. Two trees of `2 ^ 63` columns do not fit below one node. -/
theorem measure_of_built_wide :
    (∃ empty tree, node ⟨0⟩ [] = .ok empty ∧
      node ⟨0⟩ [terminal ⟨1⟩ "a", empty, terminal ⟨2⟩ "", terminal ⟨3⟩ "b"] = .ok tree ∧
      tree.shape.parts.countP Shape.isLeaf = 3 ∧ tree.shape.parts.countP Shape.isBare = 4 ∧
      tree.height = 3 ∧ tree.sentence = "a b") ∧
    ∃ wide, grow ⟨0⟩ 2 63 (terminal ⟨1⟩ "") = .ok wide ∧
      wide.shape.parts.countP Shape.isBare = 2 ^ 63 ∧
      node ⟨0⟩ [wide, wide] = .error .addOverflow := by
  constructor
  · have hrun : (do
        let empty ← node ⟨0⟩ []
        let tree ← node ⟨0⟩ [terminal ⟨1⟩ "a", empty, terminal ⟨2⟩ "", terminal ⟨3⟩ "b"]
        return tree.measure) = .ok ⟨3, 4, 3, "a b"⟩ := by decide +kernel
    obtain ⟨empty, hempty, hrun⟩ := bind_eq_ok_iff.1 hrun
    obtain ⟨tree, htree, hrun⟩ := bind_eq_ok_iff.1 hrun
    have hmeasure : tree.measure = ⟨3, 4, 3, "a b"⟩ := Except.ok.inj hrun
    have hbuilt : tree.Built := by
      refine .node ?_ htree
      simp only [List.forall_mem_cons]
      exact ⟨.terminal _ _, .node (List.forall_mem_nil _) hempty, .terminal _ _, .terminal _ _,
        List.forall_mem_nil _⟩
    obtain ⟨hleaves, hwidth, -⟩ := measure_of_built.1 tree hbuilt
    rw [leaves, hmeasure] at hleaves
    rw [width, hmeasure] at hwidth
    exact ⟨empty, tree, hempty, htree, hleaves.symm, hwidth.symm, by rw [height, hmeasure],
      by rw [sentence, hmeasure]⟩
  · have hrun : (grow ⟨0⟩ 2 63 (terminal ⟨1⟩ "")).map width = .ok (2 ^ 63) := by decide +kernel
    obtain ⟨wide, hgrow, hwide⟩ := map_eq_ok_iff.1 hrun
    have hbuilt : wide.Built := Built.grow (.terminal ⟨1⟩ "") hgrow
    have hcount := (measure_of_built.1 wide hbuilt).2.1
    rw [hwide] at hcount
    obtain ⟨hrefused, hfault, -⟩ := measure_of_built.2 ⟨0⟩ [wide, wide] (by simp [hbuilt])
    have hlarge : Word.largest <
        (Shape.node ⟨0⟩ ([wide, wide].map shape)).parts.countP Shape.isBare := by
      simp [Shape.isBare, ← hcount, Word.largest]
    obtain ⟨fault, hnode⟩ := hrefused.2 (.inl hlarge)
    rw [hfault fault hnode] at hnode
    exact ⟨wide, hgrow, hcount.symm, hnode⟩

end Tree

end ContextFree
