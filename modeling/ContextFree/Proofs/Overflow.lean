import ContextFree.Proofs.Measures

/-!
# Trees too large to be measured

Building a node fails in one way only: an addition leaves the range of a machine word. Then the
shape of the node is itself too wide or too high, for the sums are those of a row of children
that grows at its end, and a row is never narrower than the rows it grew from. Leaves need no
attention of their own, since a shape has no more leaves than columns.
-/
namespace ContextFree

namespace Shape

lemma length_yields_le_widths {shapes : List Shape}
    (h : ∀ shape ∈ shapes, shape.leafCount ≤ shape.width) :
    (shapes.flatMap yield).length ≤ widths shapes := by
  induction shapes with
  | nil => simp
  | cons shape shapes ih =>
    obtain ⟨hshape, hshapes⟩ := List.forall_mem_cons.1 h
    have hrest := ih hshapes
    rw [leafCount] at hshape
    rw [List.flatMap_cons, List.length_append, widths]
    omega

theorem leafCount_le_width (shape : Shape) : shape.leafCount ≤ shape.width := by
  induction shape with
  | leaf symbol => simp [leafCount, width]
  | node symbol children ih =>
    have hrow := length_yields_le_widths ih
    rw [leafCount, yield_node, width_node]
    omega

end Shape

namespace Measure

/-- A tree fails to join a row only when the row becomes too wide. -/
lemma DescribesRow.overflow_of_append {row tree : Measure} {shapes : List Shape} {shape : Shape}
    {names more : List String} {fault : Fault} (hrow : row.DescribesRow shapes names)
    (htree : tree.Describes shape more) (h : row.append tree = .error fault) :
    fault = .addOverflow ∧ Word.largest < Shape.widths (shapes ++ [shape]) := by
  have hwidths : row.width + tree.width = Shape.widths (shapes ++ [shape]) := by
    rw [hrow.width, htree.width, Shape.widths_append, Shape.widths_singleton]
  rcases bind_eq_error_iff.1 h with hwidth | ⟨width, _, h⟩
  · obtain ⟨hlarge, hfault⟩ := Word.add_eq_error_iff.1 hwidth
    rw [hwidths] at hlarge
    exact ⟨hfault.symm, hlarge⟩
  · rcases bind_eq_error_iff.1 h with hleaves | ⟨leaves, _, h⟩
    · obtain ⟨hlarge, hfault⟩ := Word.add_eq_error_iff.1 hleaves
      have hshapes := Shape.length_yields_le_widths fun shape (_ : shape ∈ shapes) =>
        shape.leafCount_le_width
      have hshape := shape.leafCount_le_width
      rw [hrow.leaves, htree.leaves] at hlarge
      rw [Shape.widths_append, Shape.widths_singleton]
      exact ⟨hfault.symm, by omega⟩
    · cases h

/-- A row of trees that cannot be measured is too wide. -/
lemma DescribesRow.overflow_of_foldlM {trees : List Tree} {row : Measure} {shapes : List Shape}
    {names : List String} {fault : Fault} (hrow : row.DescribesRow shapes names)
    (htrees : ∀ tree ∈ trees, tree.measure.Describes tree.shape tree.names)
    (h : (trees.map Tree.measure).foldlM Measure.append row = .error fault) :
    fault = .addOverflow ∧ Word.largest < Shape.widths (shapes ++ trees.map Tree.shape) := by
  induction trees generalizing row shapes names with
  | nil => cases h
  | cons tree trees ih =>
    obtain ⟨htree, htrees⟩ := List.forall_mem_cons.1 htrees
    rw [List.map_cons, List.foldlM_cons] at h
    rcases bind_eq_error_iff.1 h with happend | ⟨next, hnext, hrest⟩
    · obtain ⟨hfault, hlarge⟩ := hrow.overflow_of_append htree happend
      rw [Shape.widths_append, Shape.widths_singleton] at hlarge
      rw [List.map_cons, Shape.widths_append, Shape.widths]
      exact ⟨hfault, by omega⟩
    · have hmore := ih (hrow.append htree hnext) htrees hrest
      rwa [List.append_assoc, List.singleton_append, ← List.map_cons] at hmore

lemma DescribesRow.overflow_of_above {row : Measure} {shapes : List Shape} {names : List String}
    {fault : Fault} (hrow : row.DescribesRow shapes names) (h : row.above = .error fault)
    (symbol : Symbol) :
    fault = .addOverflow ∧ Word.largest < (Shape.node symbol shapes).height := by
  rcases bind_eq_error_iff.1 h with hheight | ⟨height, _, h⟩
  · obtain ⟨hlarge, hfault⟩ := Word.add_eq_error_iff.1 hheight
    rw [hrow.height] at hlarge
    exact ⟨hfault.symm, hlarge⟩
  · cases h

end Measure

/-- A shape with more columns or more levels than a machine word can count. -/
def Shape.Oversized (shape : Shape) : Prop := Word.largest < max shape.width shape.height

/-- A node above built trees fails to be built only when it is too large. -/
theorem Tree.oversized_of_node {symbol : Symbol} {children : List Tree} {fault : Fault}
    (hchildren : ∀ child ∈ children, child.Built) (h : Tree.node symbol children = .error fault) :
    fault = .addOverflow ∧ (Shape.node symbol (children.map Tree.shape)).Oversized := by
  have hdescribes : ∀ child ∈ children, child.measure.Describes child.shape child.names :=
    fun child hchild => (hchildren child hchild).describes
  rcases bind_eq_error_iff.1 h with hmeasure | ⟨measure, _, h⟩
  · rcases bind_eq_error_iff.1 hmeasure with hrow | ⟨row, hrow, habove⟩
    · obtain ⟨hfault, hlarge⟩ :=
        Measure.describesRow_emptyRow.overflow_of_foldlM hdescribes hrow
      rw [List.nil_append] at hlarge
      rw [Shape.Oversized, Shape.width_node]
      exact ⟨hfault, by omega⟩
    · have hdescribed :=
        Measure.describesRow_foldlM Measure.describesRow_emptyRow hdescribes hrow
      rw [List.nil_append] at hdescribed
      obtain ⟨hfault, hlarge⟩ := hdescribed.overflow_of_above habove symbol
      rw [Shape.Oversized]
      exact ⟨hfault, by omega⟩
  · cases h

end ContextFree
