import ContextFree.Proofs.Enumerating

/-!
# Layers of an enumeration

A step builds every language anew, but it does not reorder what was found: the trees of a
nonterminal before the step are those of the trees after it that are low enough, in the same
order. Rows are chosen in one order from the old trees and from the new ones, a tree that is low
enough stands above a row of low trees, and of equal trees, which have one height, the first is
kept on both sides.

The statement compares the trees at hand with those of the *next* step, so it is carried along
as an invariant: `Layered` speaks of whatever a step would make of every rule.
-/
namespace ContextFree

/-- Whether a tree has no more than the given number of levels. -/
def Tree.atMost (bound : ℕ) (tree : Tree) : Bool := decide (tree.shape.height ≤ bound)

namespace Expansion

variable {g : Grammar} {limit : ℕ} {e next : Expansion} {p : Tree → Bool}

/-- What is left out is left out before trees are compared or afterwards, as long as it is left
out together with every tree that is equal to it. -/
lemma toList_foldl_insert_filter {trees : List Tree} {s t : OrderedSet Tree}
    (hp : ∀ a b : Tree, a.shape = b.shape → p a = p b) (hts : t.toList = s.toList.filter p) :
    ((trees.filter p).foldl OrderedSet.insert t).toList =
      (trees.foldl OrderedSet.insert s).toList.filter p := by
  induction trees generalizing s t with
  | nil => exact hts
  | cons tree trees ih =>
    rw [List.filter_cons]
    cases hkept : p tree with
    | false =>
      refine ih ?_
      rw [hts, OrderedSet.toList_insert]
      split
      · rfl
      · simp [List.filter_append, hkept]
    | true =>
      have hcontains : t.contains tree = s.contains tree := by
        rw [Bool.eq_iff_iff, OrderedSet.contains_iff, OrderedSet.contains_iff, hts]
        constructor
        · intro ⟨other, hother, hequal⟩
          exact ⟨other, List.mem_of_mem_filter hother, hequal⟩
        · intro ⟨other, hother, hequal⟩
          have hkept' : p other = true := (hp tree other (Tree.beq_iff.1 hequal)).symm.trans hkept
          exact ⟨other, List.mem_filter.2 ⟨hother, hkept'⟩, hequal⟩
      refine ih ?_
      rw [OrderedSet.toList_insert, OrderedSet.toList_insert, hcontains, hts]
      split
      · rfl
      · simp [List.filter_append, hkept]

lemma toList_dedup_filter (hp : ∀ a b : Tree, a.shape = b.shape → p a = p b)
    (trees : List Tree) : (dedup (trees.filter p)).toList = (dedup trees).toList.filter p :=
  toList_foldl_insert_filter hp rfl

/-- Rows put in front of each other, of which only those made of kept trees are kept. -/
lemma flatMap_filter_rows (trees : List Tree) (rows : List (List Tree)) :
    ((trees.filter p).flatMap fun tree => (rows.filter fun row => row.all p).map (tree :: ·)) =
      (trees.flatMap fun tree => rows.map (tree :: ·)).filter fun row => row.all p := by
  induction trees with
  | nil => rfl
  | cons tree trees ih =>
    rw [List.flatMap_cons, List.filter_append, ← ih, List.filter_cons, List.filter_map]
    cases hkept : p tree with
    | false => simp [Function.comp_def, hkept]
    | true => simp [Function.comp_def, hkept]

/-- Fewer choices leave fewer rows, in the same order. -/
lemma products_eq_filter (h : ∀ symbol, e.choices symbol = (next.choices symbol).filter p)
    (rhs : List Symbol) : e.products rhs = (next.products rhs).filter fun row => row.all p := by
  induction rhs with
  | nil => rfl
  | cons symbol rhs ih =>
    rw [products_cons, products_cons, prepend, prepend, h symbol, ih, flatMap_filter_rows]

lemma rows_eq_filter (h : ∀ symbol, e.choices symbol = (next.choices symbol).filter p)
    (rule : Rule) : e.rows rule = (next.rows rule).filter fun row => row.all p := by
  simp only [rows, List.filter_flatMap]
  exact List.flatMap_congr fun rhs _ => products_eq_filter h rhs

lemma products_congr (h : ∀ symbol, e.choices symbol = next.choices symbol) :
    e.products = next.products := by
  funext rhs
  induction rhs with
  | nil => rfl
  | cons symbol rhs ih => rw [products_cons, products_cons, prepend, prepend, ih, h]

lemma products_of_cost (e : Expansion) (cost : ℕ) :
    Expansion.products { e with cost } = e.products :=
  products_congr fun _ => rfl

/-- The cost plays no part in what a step makes of a rule. -/
lemma Deepens.of_cost {cost : ℕ} {rule : Rule} {language : Language}
    (h : Deepens { e with cost } rule language) : e.Deepens rule language := by
  obtain ⟨hsymbol, trees, htrees, hlanguage⟩ := h
  rw [rows, products_of_cost] at htrees
  exact ⟨hsymbol, trees, htrees, hlanguage⟩

/-- Of two languages built above low rows and above all rows, the first holds the low trees of
the second. -/
lemma Deepens.trees_eq_filter {bound : ℕ} {rule : Rule} {low all : Language}
    (hlow : e.Deepens rule low) (hall : next.Deepens rule all) (hbound : 1 ≤ bound)
    (h : ∀ symbol, e.choices symbol = (next.choices symbol).filter (Tree.atMost bound)) :
    low.trees = all.trees.filter (Tree.atMost (bound + 1)) := by
  obtain ⟨_, lowTrees, hlowTrees, hlow⟩ := hlow
  obtain ⟨_, allTrees, hallTrees, hall⟩ := hall
  -- a node is low exactly when it stands above a row of trees that are lower by one level
  have hheight : ∀ row tree, Tree.node rule.lhs row = .ok tree →
      row.all (Tree.atMost bound) = tree.atMost (bound + 1) := by
    intro row tree hnode
    rw [Bool.eq_iff_iff, List.all_eq_true, Tree.atMost, decide_eq_true_iff,
      Tree.shape_of_node hnode, Shape.height_node_le_iff, List.forall_mem_map]
    simp only [Tree.atMost, decide_eq_true_iff, hbound, true_and]
  have hfiltered := mapM_filter hheight hallTrees
  rw [← rows_eq_filter h, hlowTrees] at hfiltered
  rw [hlow, hall, Except.ok.inj hfiltered, toList_dedup_filter]
  intro a b hshape
  rw [Tree.atMost, Tree.atMost, hshape]

/-- Whatever a step makes of a rule, the trees at hand are the low ones of it. -/
def Layered (g : Grammar) (e : Expansion) : Prop :=
  ∀ rule ∈ g.rules, ∀ language, e.Deepens rule language →
    e.derivations rule.lhs = language.trees.filter (Tree.atMost (e.depth + 1))

namespace Exact

variable {symbol : Symbol}

lemma choices_of_nonterminal (h : Exact g e) (hsymbol : symbol ∈ g.nonterminals) :
    e.choices symbol = e.derivations symbol := by
  obtain ⟨language, _, _, htrees⟩ := h.exists_language hsymbol
  rw [choices, derivations, htrees, Option.getD_some, Option.getD_some]

lemma choices_of_terminal (h : Exact g e) (hsymbol : symbol ∉ g.nonterminals) :
    e.choices symbol = [g.leaf symbol] := by
  rw [choices, h.trees?_of_terminal hsymbol, Option.getD_none, h.grammar]

/-- A finished step holds, for every nonterminal, what it made of the rule. -/
lemma exists_deepens (h : Exact g e) (hstep : e.expand.outcome = .ok (next, .ok ()))
    (hsymbol : symbol ∈ g.nonterminals) :
    ∃ rule ∈ g.rules, rule.lhs = symbol ∧
      ∃ language, e.Deepens rule language ∧ next.derivations symbol = language.trees := by
  obtain ⟨rule, hrule, rfl⟩ := Grammar.mem_nonterminals.1 hsymbol
  have hnext := h.expand hstep
  rcases cases_of_expand hstep with ⟨cost, languages, hbuild, rfl, _⟩ | ⟨_, _, _, hfailed⟩
  · have hrules := deepens_of_buildRules hbuild
    rw [h.grammar] at hrules
    obtain ⟨language, hlanguage, hdeepens⟩ := exists_left_of_forall₂ hrules.flip rule hrule
    refine ⟨rule, hrule, rfl, language, hdeepens, ?_⟩
    rw [← hdeepens.symbol]
    exact hnext.derivations_eq hlanguage
  · cases hfailed

end Exact

lemma depth_of_expand (hstep : e.expand.outcome = .ok (next, .ok ())) :
    next.depth = e.depth + 1 := by
  rcases cases_of_expand hstep with ⟨_, _, _, rfl, _⟩ | ⟨_, _, _, hfailed⟩
  · rfl
  · cases hfailed

namespace Layered

lemma start (g : Grammar) (limit : ℕ) : Layered g (.start g limit) := by
  intro rule hrule language hdeepens
  have hexact := Exact.start g limit
  have hnone : ∀ tree ∈ language.trees, ¬ tree.atMost ((Expansion.start g limit).depth + 1) = true := by
    intro tree htree hlow
    obtain ⟨⟨_, children, hnode⟩, _⟩ :=
      (hexact.mem_shapes_of_deepens hrule hdeepens).1 (List.mem_map_of_mem htree)
    have htall := Shape.two_le_height_node language.symbol children
    rw [Tree.atMost, decide_eq_true_iff, hnode] at hlow
    exact absurd hlow (Nat.not_le.2 htall)
  have hsymbol : rule.lhs ∈ g.nonterminals := Grammar.mem_nonterminals.2 ⟨rule, hrule, rfl⟩
  obtain ⟨found, hfound, hlhs, _⟩ := hexact.exists_language hsymbol
  rw [List.filter_eq_nil_iff.2 hnone, ← hlhs, hexact.derivations_eq hfound]
  obtain ⟨_, _, rfl⟩ := List.mem_map.1 hfound
  rfl

/-- The trees before a finished step are the low ones of those after it. -/
lemma derivations_eq_filter (h : Layered g e) (hexact : Exact g e)
    (hstep : e.expand.outcome = .ok (next, .ok ())) {symbol : Symbol}
    (hsymbol : symbol ∈ g.nonterminals) :
    e.derivations symbol = (next.derivations symbol).filter (Tree.atMost (e.depth + 1)) := by
  obtain ⟨rule, hrule, rfl, language, hdeepens, htrees⟩ := hexact.exists_deepens hstep hsymbol
  rw [htrees]
  exact h rule hrule language hdeepens

lemma choices_eq_filter (h : Layered g e) (hexact : Exact g e)
    (hstep : e.expand.outcome = .ok (next, .ok ())) (symbol : Symbol) :
    e.choices symbol = (next.choices symbol).filter (Tree.atMost (e.depth + 1)) := by
  have hnext := hexact.expand hstep
  by_cases hsymbol : symbol ∈ g.nonterminals
  · rw [hexact.choices_of_nonterminal hsymbol, hnext.choices_of_nonterminal hsymbol]
    exact h.derivations_eq_filter hexact hstep hsymbol
  · rw [hexact.choices_of_terminal hsymbol, hnext.choices_of_terminal hsymbol]
    have hleaf : (g.leaf symbol).atMost (e.depth + 1) = true := by simp [Tree.atMost]
    rw [List.filter_singleton, hleaf, cond_true]

theorem expand (h : Layered g e) (hexact : Exact g e) {result : Except EnumerationError Unit}
    (hstep : e.expand.outcome = .ok (next, result)) : Layered g next := by
  intro rule hrule language hdeepens
  rcases cases_of_expand hstep with ⟨_, _, _, _, rfl⟩ | ⟨cost, _, rfl, _⟩
  · have hsymbol : rule.lhs ∈ g.nonterminals := Grammar.mem_nonterminals.2 ⟨rule, hrule, rfl⟩
    obtain ⟨other, hother, hlhs, before, hbefore, htrees⟩ := hexact.exists_deepens hstep hsymbol
    obtain rfl := Grammar.rule_eq_of_lhs_eq hother hrule hlhs
    rw [htrees, depth_of_expand hstep]
    exact hbefore.trees_eq_filter hdeepens (Nat.le_add_left 1 e.depth)
      (h.choices_eq_filter hexact hstep)
  · exact h rule hrule language hdeepens.of_cost

end Layered

theorem Reachable.layered (h : Reachable g limit e) : Layered g e := by
  have hboth : Exact g e ∧ Layered g e := by
    apply h.invariant (motive := fun e => Exact g e ∧ Layered g e)
    · exact ⟨Exact.start g limit, Layered.start g limit⟩
    · intro e next result hbefore hstep
      exact ⟨hbefore.1.expand hstep, hbefore.2.expand hbefore.1 hstep⟩
  exact hboth.2

end Expansion

end ContextFree
