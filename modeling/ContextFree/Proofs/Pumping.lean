import ContextFree.Proofs.Heights

/-!
# Pumping

A nonterminal with itself strictly below it has infinitely many derivation trees as soon as it
has one: the part between the two is put on top again and again. When every nonterminal has
finitely many derivation trees, no nonterminal of a valid shape comes again further down, and
the shape is at most one level higher than there are nonterminals.
-/
namespace ContextFree.Grammar

variable {g : Grammar} {symbol other : Symbol} {shape : Shape}

/-- One symbol stands strictly above another one in a shape that is valid around them. -/
def Surrounds (g : Grammar) (symbol inner : Symbol) : Prop :=
  ∃ frames, frames ≠ [] ∧ g.Spine symbol frames inner

instance : IsTrans Symbol g.Surrounds where
  trans := by
    intro symbol middle inner ⟨frames, hnonempty, hspine⟩ ⟨more, _, hmore⟩
    exact ⟨frames ++ more, by simp [hnonempty], hspine.append hmore⟩

lemma surrounds_of_mem {children : List Shape} {child : Shape}
    (hvalid : g.Valid (.node symbol children)) (hchild : child ∈ children) :
    g.Surrounds symbol child.root := by
  obtain ⟨frame, hspine, _⟩ := exists_frame_of_mem hvalid hchild
  exact ⟨[frame], by simp, hspine⟩

/-- What stands above itself can be pumped. -/
theorem infinite_of_surrounds_itself (h : g.Surrounds symbol symbol)
    (hshape : g.IsDerivation symbol shape) : {shape | g.IsDerivation symbol shape}.Infinite := by
  obtain ⟨frames, hnonempty, hspine⟩ := h
  apply Set.infinite_of_injective_forall_mem (Shape.plug_iterate_injective hnonempty shape)
  intro n
  induction n with
  | zero => exact hshape
  | succ n ih =>
    simp only [Function.iterate_succ_apply']
    exact hspine.isDerivation_plug ih

lemma FinitelyMany.not_surrounds_itself (h : g.FinitelyMany)
    (hshape : g.IsDerivation symbol shape) : ¬ g.Surrounds symbol symbol :=
  fun hsurrounds =>
    infinite_of_surrounds_itself hsurrounds hshape (h symbol hshape.mem_nonterminals)

/-- On the way down fewer and fewer nonterminals are left. -/
lemma FinitelyMany.height_le (h : g.FinitelyMany) (hvalid : g.Valid shape) :
    shape.height ≤ g.rank g.Surrounds shape.root + 2 := by
  induction hvalid with
  | leaf symbol => rw [Shape.height_leaf]; omega
  | node symbol children production valid ih =>
    have hnode := Grammar.Valid.node symbol children production valid
    rw [Shape.height_node_le_iff]
    refine ⟨by omega, fun child hchild => ?_⟩
    have hbound := ih child hchild
    rw [Shape.root_node]
    by_cases hroot : child.root ∈ g.nonterminals
    · have hderivation := (valid child hchild).isDerivation hroot
      have hrank : g.rank g.Surrounds child.root < g.rank g.Surrounds symbol :=
        rank_lt hroot (surrounds_of_mem hnode hchild) (h.not_surrounds_itself hderivation)
      omega
    · cases hcases : child with
      | leaf leaf => rw [Shape.height_leaf]; omega
      | node next grandchildren =>
        rw [hcases] at hroot hchild
        exact absurd (lhs_mem_nonterminals (valid _ hchild).production_mem) hroot

/-- A derivation tree is at most one level higher than there are nonterminals. -/
theorem FinitelyMany.height_le_of_isDerivation (h : g.FinitelyMany)
    (hshape : g.IsDerivation symbol shape) : shape.height ≤ g.nonterminals.length + 1 := by
  have hheight := h.height_le hshape.1
  have hrank : g.rank g.Surrounds symbol < g.nonterminals.length :=
    rank_lt_length hshape.mem_nonterminals (h.not_surrounds_itself hshape)
  rw [root_of_isDerivation hshape] at hheight
  omega

end ContextFree.Grammar
