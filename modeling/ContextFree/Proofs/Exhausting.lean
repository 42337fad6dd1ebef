import ContextFree.Proofs.Heights
import ContextFree.Proofs.Layering

/-!
# Exhaustive enumerations

A run calls itself exhaustive when its last step left the number of trees as it was. The old
trees are among the new ones, so equal numbers mean equal lists, and no derivation tree is
exactly one level too high to have been found. Then none is higher at all, for the lowest tree
that was missed would stand above trees that were found.

From there on a step finds the same trees again, in the same order.
-/
namespace ContextFree

namespace Grammar

variable {g : Grammar} {bound : ℕ}

/-- No derivation tree has more levels than the bound. -/
def Bounded (g : Grammar) (bound : ℕ) : Prop :=
  ∀ symbol shape, g.IsDerivation symbol shape → shape.height ≤ bound

/-- A row of trees holds all derivation trees of a symbol, nothing else, and no two that are
equal. -/
structure Lists (g : Grammar) (symbol : Symbol) (trees : List Tree) : Prop where
  mem_iff : ∀ shape, shape ∈ trees.map Tree.shape ↔ g.IsDerivation symbol shape
  distinct : trees.Pairwise fun a b => (a == b) = false

/-- When no tree is higher by just one level, no tree is higher. -/
lemma bounded_of_no_higher (hbound : 1 ≤ bound)
    (h : ∀ symbol shape, g.IsDerivation symbol shape → shape.height ≤ bound + 1 →
      shape.height ≤ bound) : g.Bounded bound := by
  have hvalid : ∀ shape, g.Valid shape → shape.height ≤ bound := by
    intro shape hshape
    induction hshape with
    | leaf symbol => rwa [Shape.height_leaf]
    | node symbol children production valid ih =>
      have hderivation : g.IsDerivation symbol (.node symbol children) :=
        ⟨.node symbol children production valid, children, rfl⟩
      exact h symbol _ hderivation (Shape.height_node_le_iff.2 ⟨hbound, ih⟩)
  exact fun _ shape hderivation => hvalid shape hderivation.1

lemma Bounded.mono {more : ℕ} (h : g.Bounded bound) (hle : bound ≤ more) : g.Bounded more :=
  fun symbol shape hderivation => (h symbol shape hderivation).trans hle

lemma Bounded.finitelyMany (h : g.Bounded bound) : g.FinitelyMany := by
  intro symbol _
  apply (g.finite_height_le bound symbol).subset
  intro shape hderivation
  exact ⟨hderivation.1, root_of_isDerivation hderivation, h symbol shape hderivation⟩

end Grammar

namespace Expansion

open Relation

variable {g : Grammar} {limit : ℕ} {e next last : Expansion} {symbol : Symbol}

/-- One state comes after another by a step, finished or given up. -/
def Steps (e next : Expansion) : Prop := ∃ result, e.expand.outcome = .ok (next, result)

lemma Reachable.of_steps (h : Reachable g limit e) (hsteps : ReflTransGen Steps e next) :
    Reachable g limit next := by
  induction hsteps with
  | refl => exact h
  | tail _ hstep ih =>
    obtain ⟨result, hexpand⟩ := hstep
    exact .expand ih hexpand

lemma steps_of_advance {steps : ℕ} {exhaustive : Bool}
    (h : (advance steps e).outcome = .ok (last, exhaustive)) : ReflTransGen Steps e last := by
  apply advance_preserves (motive := ReflTransGen Steps e) ?_ .refl h
  intro before next result hbefore hstep
  exact hbefore.tail ⟨result, hstep⟩

/-- A row of steps is exhaustive when the last of them was finished and left the number of trees
as it was. -/
lemma exists_last_step {steps : ℕ} (h : (advance steps e).outcome = .ok (last, true)) :
    ∃ before, ReflTransGen Steps e before ∧ before.expand.outcome = .ok (last, .ok ()) ∧
      last.size = before.size := by
  induction steps generalizing e with
  | zero => cases h
  | succ steps ih =>
    rw [advance, Logged.outcome_bind] at h
    obtain ⟨⟨next, result⟩, hnext, h⟩ := bind_eq_ok_iff.1 h
    cases result with
    | error failure => cases h
    | ok =>
      by_cases hsize : next.size = e.size
      · simp only [if_pos hsize] at h
        obtain ⟨rfl, _⟩ := Prod.mk.inj (Except.ok.inj h)
        exact ⟨e, .refl, hnext, hsize⟩
      · simp only [if_neg hsize] at h
        obtain ⟨before, hsteps, hlast⟩ := ih h
        exact ⟨before, .head ⟨_, hnext⟩ hsteps, hlast⟩

namespace Exact

lemma languages_eq (h : Exact g e) :
    e.languages.flatMap Language.trees = g.nonterminals.flatMap e.derivations := by
  rw [← h.symbols, List.flatMap_map]
  exact List.flatMap_congr fun language hlanguage => (h.derivations_eq hlanguage).symm

/-- When no tree is higher than those found, all of them are found. -/
lemma lists (h : Exact g e) (hbounded : g.Bounded (e.depth + 1))
    (hsymbol : symbol ∈ g.nonterminals) : g.Lists symbol (e.derivations symbol) where
  mem_iff := by
    intro shape
    rw [h.mem_shapes_derivations hsymbol]
    exact ⟨And.left, fun hderivation => ⟨hderivation, hbounded symbol shape hderivation⟩⟩
  distinct := by
    rw [Tree.pairwise_iff_nodup]
    exact h.nodup_derivations hsymbol

lemma lists_startTrees (h : Exact g e) (hbounded : g.Bounded (e.depth + 1))
    (hstart : g.start? = some symbol) : g.Lists symbol e.startTrees := by
  have hlists := h.lists hbounded (Grammar.start_mem_nonterminals hstart)
  rw [← h.grammar] at hstart
  simpa only [startTrees, hstart] using hlists

end Exact

/-- A step that leaves the number of trees as it was found all trees there are. -/
theorem bounded_of_size_eq (h : Reachable g limit e)
    (hstep : e.expand.outcome = .ok (next, .ok ())) (hsize : next.size = e.size) :
    g.Bounded (e.depth + 1) := by
  have hexact := h.exact
  have hnext := hexact.expand hstep
  have hfilter : g.nonterminals.flatMap e.derivations =
      (g.nonterminals.flatMap next.derivations).filter (Tree.atMost (e.depth + 1)) := by
    rw [List.filter_flatMap]
    exact List.flatMap_congr fun symbol hsymbol =>
      h.layered.derivations_eq_filter hexact hstep hsymbol
  rw [size, size, hexact.languages_eq, hnext.languages_eq, hfilter] at hsize
  -- leaving the higher trees out leaves none out, so the step has found no higher tree
  have hlow := List.length_filter_eq_length_iff.1 hsize.symm
  apply Grammar.bounded_of_no_higher (Nat.le_add_left 1 e.depth)
  intro symbol shape hderivation hheight
  rw [← depth_of_expand hstep] at hheight
  have hsymbol := hderivation.mem_nonterminals
  obtain ⟨tree, htree, rfl⟩ :=
    List.mem_map.1 ((hnext.mem_shapes_derivations hsymbol).2 ⟨hderivation, hheight⟩)
  exact of_decide_eq_true (hlow tree (List.mem_flatMap.2 ⟨symbol, hsymbol, htree⟩))

/-- The last step of an exhaustive row of steps was one more than needed. -/
lemma bounded_of_advance (h : Reachable g limit e) {steps : ℕ}
    (hadvance : (advance steps e).outcome = .ok (last, true)) : g.Bounded last.depth := by
  obtain ⟨before, hsteps, hexpand, hsize⟩ := exists_last_step hadvance
  rw [depth_of_expand hexpand]
  exact bounded_of_size_eq (h.of_steps hsteps) hexpand hsize

/-- Once all trees are found, a step changes nothing but cost and depth. -/
lemma derivations_of_step (h : Reachable g limit e) (hbounded : g.Bounded (e.depth + 1))
    (hstep : Steps e next) (symbol : Symbol) :
    next.derivations symbol = e.derivations symbol := by
  have hexact := h.exact
  obtain ⟨result, hexpand⟩ := hstep
  have hnext := hexact.expand hexpand
  by_cases hsymbol : symbol ∈ g.nonterminals
  · rcases cases_of_expand hexpand with ⟨_, _, _, _, rfl⟩ | ⟨_, _, rfl, _⟩
    · rw [h.layered.derivations_eq_filter hexact hexpand hsymbol, eq_comm, List.filter_eq_self]
      intro tree htree
      have hderivation := (hnext.mem_shapes_derivations hsymbol).1 (List.mem_map_of_mem htree)
      exact decide_eq_true (hbounded symbol tree.shape hderivation.1)
    · rfl
  · rw [hexact.derivations_of_terminal hsymbol, hnext.derivations_of_terminal hsymbol]

lemma depth_le_of_step (hstep : Steps e next) : e.depth ≤ next.depth := by
  obtain ⟨result, hexpand⟩ := hstep
  rcases cases_of_expand hexpand with ⟨_, _, _, rfl, _⟩ | ⟨_, _, rfl, _⟩
  · exact Nat.le_succ e.depth
  · exact le_rfl

lemma derivations_of_steps (h : Reachable g limit e) (hbounded : g.Bounded (e.depth + 1))
    (hsteps : ReflTransGen Steps e last) (symbol : Symbol) :
    last.derivations symbol = e.derivations symbol ∧ e.depth ≤ last.depth := by
  induction hsteps with
  | refl => exact ⟨rfl, le_rfl⟩
  | @tail later next hlater hstep ih =>
    have hdepth : e.depth + 1 ≤ later.depth + 1 := Nat.succ_le_succ ih.2
    have hnext := derivations_of_step (h.of_steps hlater) (hbounded.mono hdepth) hstep symbol
    exact ⟨hnext.trans ih.1, ih.2.trans (depth_le_of_step hstep)⟩

/-- An exhaustive run has found every derivation tree there is: each nonterminal has finitely
many, those of the start symbol are listed once each, and further steps leave every language
as it is. -/
theorem lists_of_exhaustive_run {maxDepth : ℕ} {enumeration : Enumeration}
    (h : Reachable g limit e) (hrun : (e.run maxDepth).outcome = .ok (enumeration, last))
    (hexhaustive : enumeration.exhaustive = true) :
    g.FinitelyMany ∧
      (∀ start, g.start? = some start → g.Lists start enumeration.trees) ∧
      ∀ later, ReflTransGen Steps last later →
        ∀ symbol, later.derivations symbol = last.derivations symbol := by
  have hreachable : Reachable g limit last := .run h hrun
  rw [Expansion.run, Logged.outcome_bind] at hrun
  obtain ⟨⟨final, exhaustive⟩, hadvance, hrun⟩ := bind_eq_ok_iff.1 hrun
  obtain ⟨rfl, rfl⟩ := Prod.mk.inj (Except.ok.inj hrun)
  obtain rfl : exhaustive = true := hexhaustive
  have hbounded : g.Bounded (final.depth + 1) :=
    (bounded_of_advance h hadvance).mono (Nat.le_succ final.depth)
  refine ⟨hbounded.finitelyMany, fun start hstart => ?_, ?_⟩
  · exact hreachable.exact.lists_startTrees hbounded hstart
  · exact fun later hlater symbol => (derivations_of_steps hreachable hbounded hlater symbol).1

/-- Two words, the derivation of one written down twice, and a nonterminal that never ends:
`S → a T | T | T`, `T → U b | b`, `U → U`. -/
def twoWords : Grammar :=
  ((({} : Grammar).addAlternatives "S" "aT|T|T").addAlternatives "T" "Ub|b").addAlternatives "U" "U"

/-- A run is resumed after one step. -/
theorem lists_of_resumed_twoWords :
    ∃ e enumeration last, Reachable twoWords 100 e ∧ e.depth = 1 ∧
      (e.run 9).outcome = .ok (enumeration, last) ∧ enumeration.exhaustive = true ∧
      enumeration.trees.length = 2 ∧ last.depth = 3 ∧
      twoWords.FinitelyMany ∧
      (∀ start, twoWords.start? = some start → twoWords.Lists start enumeration.trees) ∧
      ∀ later, ReflTransGen Steps last later →
        ∀ symbol, later.derivations symbol = last.derivations symbol := by
  have hresumed : ((start twoWords 100).expand >>= fun step => do
        let ended ← step.1.run 9
        return (step.1.depth, ended.1.exhaustive, ended.1.trees.length, ended.2.depth)).outcome =
      .ok (1, true, 2, 3) := by cbv
  rw [Logged.outcome_bind] at hresumed
  obtain ⟨⟨e, result⟩, hexpand, hresumed⟩ := bind_eq_ok_iff.1 hresumed
  rw [Logged.outcome_bind] at hresumed
  obtain ⟨⟨enumeration, last⟩, hrun, hview⟩ := bind_eq_ok_iff.1 hresumed
  obtain ⟨hdepth, hexhaustive, hlength, hlast⟩ := by simpa using Except.ok.inj hview
  have hreachable : Reachable twoWords 100 e := .expand .start hexpand
  exact ⟨e, enumeration, last, hreachable, hdepth, hrun, hexhaustive, hlength, hlast,
    lists_of_exhaustive_run hreachable hrun hexhaustive⟩

end Expansion

end ContextFree
