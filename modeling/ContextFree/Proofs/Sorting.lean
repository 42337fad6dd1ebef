import ContextFree.Grammar.Text
import ContextFree.Proofs.Arranging
import ContextFree.Proofs.Measures
import ContextFree.Tree.Order
import Mathlib

/-!
# Sorting trees in ascending order

The ascending order of trees looks at sentence and height only, so different trees can be tied, and
sorting leaves them as they stand. Trees grown from one grammar are decided by their shape, so equal
ones have the same sentence and the same height.
-/
namespace ContextFree

namespace Tree

instance : Std.TransCmp compareAscending :=
  inferInstanceAs (Std.TransCmp (compareLex (compareOn fun tree : Tree => tree.sentence.length)
    (compareLex (compareOn sentence) (compareOn height))))

/-- Ascending order is a total preorder that ties trees of the same sentence and height, and equal
trees of one grammar are tied. Sorting a row gives its only stable arrangement in this order. -/
theorem laws_of_compareAscending :
    (∀ a : Tree, compareAscending a a = .eq) ∧
    (∀ a b : Tree, compareAscending b a = (compareAscending a b).swap) ∧
    (∀ a b c : Tree, (compareAscending a b).isLE = true → (compareAscending b c).isLE = true →
      (compareAscending a c).isLE = true) ∧
    (∀ a b : Tree, (compareAscending a b).isLE = true ∨ (compareAscending b a).isLE = true) ∧
    (∀ a b : Tree, compareAscending a b = .eq ↔
      a.sentence = b.sentence ∧ a.height = b.height) ∧
    (∀ (g : Grammar) (a b : Tree), g.Grows a → g.Grows b → (a == b) = true →
      compareAscending a b = .eq) ∧
    ∀ trees : List Tree,
      (∀ sorted, Sorts compareAscending trees sorted ↔ sorted = sortAscending trees) ∧
      sortAscending (sortAscending trees) = sortAscending trees := by
  have hsorts := sorts_mergeSort compareAscending
  refine ⟨fun a => Std.ReflCmp.compare_self, fun a b => Std.OrientedCmp.eq_swap,
    fun a b c => Std.TransCmp.isLE_trans, ?_, fun a b => compareAscending_eq_eq_iff, ?_, ?_⟩
  · intro a b
    simpa using isLE_total compareAscending a b
  · intro g a b ha hb hab
    rw [ha.eq_of_shape_eq hb (beq_iff.1 hab)]
    exact Std.ReflCmp.compare_self
  · intro trees
    refine ⟨fun sorted => ⟨fun h => h.eq (hsorts trees), ?_⟩, ?_⟩
    · intro h
      rw [h]
      exact hsorts trees
    · exact List.mergeSort_of_pairwise (hsorts trees).ascending

/-- A grammar with two nonterminals for one letter: `S → a | é` and `T → a`. -/
def twoHeads : Grammar := (({} : Grammar).addAlternatives "S" "a|é").addAlternatives "T" "a"

/-- The letter `a` below a nonterminal. -/
def letterBelow (symbol : Symbol) : Tree := .nonterminal symbol [twoHeads.leaf ⟨1⟩] ⟨2, 1, 1, "a"⟩

lemma grows_letterBelow (symbol : Symbol) : twoHeads.Grows (letterBelow symbol) := by
  have hleaf : ∀ child ∈ [twoHeads.leaf ⟨1⟩], twoHeads.Grows child := by
    simpa using Grammar.Grows.leaf ⟨1⟩
  exact .node hleaf (node_eq_ok_iff.2 ⟨_, by decide +kernel, rfl⟩)

/-- Different trees can be tied, and then they stay as they stand. A letter of two bytes is shorter
than a name of two letters. -/
theorem laws_of_compareAscending_ties :
    twoHeads.Grows (letterBelow ⟨0⟩) ∧ (letterBelow ⟨0⟩ == letterBelow ⟨0⟩) = true ∧
      compareAscending (letterBelow ⟨0⟩) (letterBelow ⟨0⟩) = .eq ∧
      (letterBelow ⟨0⟩ == letterBelow ⟨3⟩) = false ∧
      compareAscending (letterBelow ⟨3⟩) (letterBelow ⟨0⟩) = .eq ∧
      (compareAscending (letterBelow ⟨0⟩) (twoHeads.leaf ⟨2⟩)).isLE = true ∧
      (compareAscending (twoHeads.leaf ⟨2⟩) (terminal ⟨4⟩ "ab")).isLE = true ∧
      (compareAscending (letterBelow ⟨0⟩) (terminal ⟨4⟩ "ab")).isLE = true ∧
      Sorts compareAscending
        [terminal ⟨4⟩ "ab", letterBelow ⟨3⟩, twoHeads.leaf ⟨2⟩, letterBelow ⟨0⟩]
        [letterBelow ⟨3⟩, letterBelow ⟨0⟩, twoHeads.leaf ⟨2⟩, terminal ⟨4⟩ "ab"] := by
  obtain ⟨hrefl, hswap, htrans, htotal, heq, hsame, hsort⟩ := laws_of_compareAscending
  have hgrows := grows_letterBelow ⟨0⟩
  have hbeq : (letterBelow ⟨0⟩ == letterBelow ⟨0⟩) = true := beq_iff.2 rfl
  have hletters : (compareAscending (letterBelow ⟨0⟩) (twoHeads.leaf ⟨2⟩)).isLE = true := by
    decide +kernel
  have hname : (compareAscending (twoHeads.leaf ⟨2⟩) (terminal ⟨4⟩ "ab")).isLE = true := by
    decide +kernel
  refine ⟨hgrows, hbeq, hsame twoHeads _ _ hgrows hgrows hbeq, by decide +kernel,
    (heq _ _).2 ⟨rfl, rfl⟩, hletters, hname, htrans _ _ _ hletters hname, ?_⟩
  refine ((hsort _).1 _).2 ?_
  cbv

end Tree

end ContextFree
