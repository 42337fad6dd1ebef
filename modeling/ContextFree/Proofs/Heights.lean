import ContextFree.Proofs.Contexts
import Mathlib.Data.Finite.Prod
import Mathlib.Data.Set.Finite.Lattice

/-!
# Bounded heights

A grammar has finitely many valid shapes of bounded height under one symbol. When no
nonterminal in a valid shape is cyclic, its height is bounded by the length of its sentence: on
the way down the sentence grows shorter, or it is passed on whole, and a sentence that is passed
on comes to a nonterminal with fewer nonterminals ahead of it.

So a word with infinitely many derivation trees has one with a cyclic nonterminal in it.
-/
namespace ContextFree.Grammar

open Relation

variable {g : Grammar} {symbol other : Symbol} {shape : Shape}

/-- Rows that are chosen symbol by symbol from finite sets are finite in number. -/
lemma finite_forall₂ {choices : Symbol → Set Shape} (hchoices : ∀ symbol, (choices symbol).Finite)
    (symbols : List Symbol) :
    {shapes | List.Forall₂ (fun symbol shape => shape ∈ choices symbol) symbols shapes}.Finite := by
  induction symbols with
  | nil =>
    apply (Set.finite_singleton []).subset
    intro shapes hshapes
    exact List.forall₂_nil_left_iff.1 hshapes
  | cons symbol symbols ih =>
    apply (Set.Finite.image2 List.cons (hchoices symbol) ih).subset
    intro shapes hshapes
    obtain ⟨shape, rest, hshape, hrest, rfl⟩ := List.forall₂_cons_left_iff.1 hshapes
    exact Set.mem_image2_of_mem hshape hrest

theorem finite_height_le (g : Grammar) (bound : ℕ) (symbol : Symbol) :
    {shape | g.Valid shape ∧ shape.root = symbol ∧ shape.height ≤ bound}.Finite := by
  induction bound generalizing symbol with
  | zero =>
    apply Set.finite_empty.subset
    rintro shape ⟨_, _, hheight⟩
    have := shape.one_le_height
    omega
  | succ bound ih =>
    have hrows : (⋃ production ∈ {production | production ∈ g.productions},
        Shape.node symbol '' {shapes | List.Forall₂ (fun symbol shape => shape ∈
          {shape | g.Valid shape ∧ shape.root = symbol ∧ shape.height ≤ bound})
          production.rhs shapes}).Finite :=
      (List.finite_toSet g.productions).biUnion fun production _ =>
        (finite_forall₂ ih production.rhs).image _
    apply ((Set.finite_singleton (Shape.leaf symbol)).union hrows).subset
    rintro shape ⟨hvalid, rfl, hheight⟩
    cases hvalid with
    | leaf symbol => exact .inl rfl
    | node symbol children production valid =>
      have hheights := (Shape.height_node_le_iff.1 hheight).2
      refine .inr (Set.mem_biUnion production ⟨children, ?_, rfl⟩)
      show List.Forall₂ _ (children.map Shape.root) children
      rw [List.forall₂_map_left_iff, List.forall₂_same]
      intro child hchild
      exact ⟨valid child hchild, rfl, hheights child hchild⟩

/-- Every nonterminal has finitely many derivation trees. -/
def FinitelyMany (g : Grammar) : Prop :=
  ∀ symbol ∈ g.nonterminals, {shape | g.IsDerivation symbol shape}.Finite

open Classical in
/-- The number of nonterminals that a relation leads to. -/
noncomputable def rank (g : Grammar) (R : Symbol → Symbol → Prop) (symbol : Symbol) : ℕ :=
  (g.nonterminals.toFinset.filter (R symbol)).card

section Rank

variable {R : Symbol → Symbol → Prop}

lemma rank_le (g : Grammar) (R : Symbol → Symbol → Prop) (symbol : Symbol) :
    g.rank R symbol ≤ g.nonterminals.length := by
  classical
  exact (Finset.card_filter_le _ _).trans (List.toFinset_card_le _)

/-- A nonterminal that a relation does not lead back to is not counted. -/
lemma rank_lt_length (hsymbol : symbol ∈ g.nonterminals) (hirreflexive : ¬ R symbol symbol) :
    g.rank R symbol < g.nonterminals.length := by
  classical
  refine lt_of_lt_of_le ?_ (List.toFinset_card_le g.nonterminals)
  exact Finset.card_lt_card (Finset.filter_ssubset.2
    ⟨symbol, List.mem_toFinset.2 hsymbol, hirreflexive⟩)

/-- Going along a transitive relation leaves fewer nonterminals ahead, unless it comes back. -/
lemma rank_lt [IsTrans Symbol R] (hother : other ∈ g.nonterminals) (h : R symbol other)
    (hirreflexive : ¬ R other other) : g.rank R other < g.rank R symbol := by
  classical
  apply Finset.card_lt_card
  rw [Finset.ssubset_iff_of_subset]
  · refine ⟨other, ?_, ?_⟩
    · rw [Finset.mem_filter, List.mem_toFinset]
      exact ⟨hother, h⟩
    · rw [Finset.mem_filter]
      exact fun hmem => hirreflexive hmem.2
  · intro last hlast
    rw [Finset.mem_filter] at hlast ⊢
    exact ⟨hlast.1, IsTrans.trans symbol other last h hlast.2⟩

end Rank

/-- The number of nonterminals that a sentence may be passed on to. -/
noncomputable def passRank (g : Grammar) : Symbol → ℕ := g.rank (TransGen g.Passes)

lemma passRank_le (g : Grammar) (symbol : Symbol) : g.passRank symbol ≤ g.nonterminals.length :=
  g.rank_le _ symbol

/-- Passing a sentence on brings it closer to the end, unless it can come back. -/
lemma passRank_lt (hpasses : g.Passes symbol other) (hacyclic : ¬ TransGen g.Passes other other) :
    g.passRank other < g.passRank symbol :=
  rank_lt hpasses.1 (.single hpasses) hacyclic

/-- A child has a shorter sentence than its parent, or the same one, passed on to it. -/
lemma shorter_or_passes {children : List Shape} {child : Shape}
    (hvalid : g.Valid (.node symbol children)) (hchild : child ∈ children)
    (hroot : child.root ∈ g.nonterminals) :
    child.yield.length < (Shape.node symbol children).yield.length ∨
      child.yield.length = (Shape.node symbol children).yield.length ∧
        g.Passes symbol child.root := by
  obtain ⟨before, after, rfl⟩ := List.append_of_mem hchild
  have hlength : (Shape.node symbol (before ++ child :: after)).yield.length =
      (before.flatMap Shape.yield).length + child.yield.length +
        (after.flatMap Shape.yield).length := by
    simp only [Shape.yield_node, List.flatMap_append, List.flatMap_cons, List.length_append]
    omega
  by_cases hempty : before.flatMap Shape.yield = [] ∧ after.flatMap Shape.yield = []
  · obtain ⟨hbefore, hafter⟩ := hempty
    right
    refine ⟨by rw [hlength, hbefore, hafter]; simp, hroot, before.map Shape.root,
      after.map Shape.root, ?_, ?_⟩
    · have hproduction := hvalid.production_mem
      rwa [List.map_append, List.map_cons] at hproduction
    · rw [← List.map_append]
      intro neighbour hneighbour
      obtain ⟨part, hpart, rfl⟩ := List.mem_map.1 hneighbour
      have hyields := List.forall_mem_append.2
        ⟨List.flatMap_eq_nil_iff.1 hbefore, List.flatMap_eq_nil_iff.1 hafter⟩
      have hvalid' := hvalid.of_mem (mem_of_mem_around hpart)
      exact vanishes_iff.2 ⟨part, rfl, hvalid', hyields part hpart⟩
  · left
    rw [not_and_or, ← List.length_eq_zero_iff, ← List.length_eq_zero_iff] at hempty
    omega

/-- Without cyclic nonterminals the height of a shape is bounded by the length of its
sentence. -/
theorem height_le_of_acyclic (hvalid : g.Valid shape)
    (hacyclic : ∀ part : Shape, part.Within shape → ¬ TransGen g.Passes part.root part.root) :
    shape.height ≤
      shape.yield.length * (g.nonterminals.length + 2) + g.passRank shape.root + 2 := by
  induction hvalid with
  | leaf symbol => rw [Shape.height_leaf]; omega
  | node symbol children production valid ih =>
    have hnode := Grammar.Valid.node symbol children production valid
    rw [Shape.height_node_le_iff]
    refine ⟨by omega, fun child hchild => ?_⟩
    have hbound := ih child hchild fun part hpart => hacyclic part (.child hchild hpart)
    rw [Shape.root_node]
    cases hcases : child with
    | leaf leaf => rw [Shape.height_leaf]; omega
    | node next grandchildren =>
      have hroot : child.root ∈ g.nonterminals := by
        have hderivation := valid child hchild
        rw [hcases] at hderivation ⊢
        exact lhs_mem_nonterminals hderivation.production_mem
      rw [← hcases]
      -- one token fewer is worth more than any rank; with the same sentence the rank drops
      rcases shorter_or_passes hnode hchild hroot with hshorter | ⟨hsame, hpasses⟩
      · have hrank := g.passRank_le child.root
        have hstep := Nat.mul_le_mul_right (g.nonterminals.length + 2) (Nat.succ_le_of_lt hshorter)
        rw [Nat.succ_mul] at hstep
        omega
      · have hrank := passRank_lt hpasses (hacyclic child (.child hchild .self))
        rw [hsame] at hbound
        omega

/-- Among infinitely many derivation trees of one word there is one with a cyclic
nonterminal. -/
theorem exists_cycle_of_infinitelyAmbiguous {word : List Symbol}
    (h : g.InfinitelyAmbiguous symbol word) :
    ∃ shape, g.IsDerivation symbol shape ∧
      ∃ part : Shape, part.Within shape ∧ TransGen g.Passes part.root part.root := by
  by_contra hnone
  push Not at hnone
  apply h
  have hfinite := g.finite_height_le
    (word.length * (g.nonterminals.length + 2) + g.passRank symbol + 2) symbol
  apply hfinite.subset
  rintro shape ⟨hderivation, rfl⟩
  have hheight := height_le_of_acyclic hderivation.1 (hnone shape hderivation)
  rw [root_of_isDerivation hderivation] at hheight
  exact ⟨hderivation.1, root_of_isDerivation hderivation, hheight⟩

end ContextFree.Grammar
