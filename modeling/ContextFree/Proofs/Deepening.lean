import ContextFree.Enumeration.Run
import ContextFree.Proofs.Outcomes

/-!
# Steps of an enumeration

An enumeration comes to its states by steps and runs, and whatever every step preserves holds of
all of them (`Reachable.invariant`). A finished step makes one language of every rule: the rows
of trees for its right-hand sides are chosen from the old languages, a tree is built above each
row, and trees that were built before are left out. A step that is given up changes nothing but
the cost.
-/
namespace ContextFree

namespace Expansion

/-- The states an enumeration can come to by steps and runs, in any order. -/
inductive Reachable (g : Grammar) (limit : ℕ) : Expansion → Prop
  | start : Reachable g limit (start g limit)
  | expand {e next : Expansion} {result : Except EnumerationError Unit}
      (before : Reachable g limit e) (step : e.expand.outcome = .ok (next, result)) :
      Reachable g limit next
  | run {e last : Expansion} {maxDepth : ℕ} {enumeration : Enumeration}
      (before : Reachable g limit e) (steps : (e.run maxDepth).outcome = .ok (enumeration, last)) :
      Reachable g limit last

variable {g : Grammar} {limit : ℕ} {e next : Expansion}

/-- What a step can do: deepen every language, or change the cost alone. -/
lemma cases_of_expand {result : Except EnumerationError Unit}
    (h : e.expand.outcome = .ok (next, result)) :
    (∃ cost languages, e.buildRules e.cost e.grammar.rules = .ok (cost, languages) ∧
        next = { e with languages, cost, depth := e.depth + 1 } ∧ result = .ok ()) ∨
      ∃ cost, e.buildRules e.cost e.grammar.rules = .error (.limitExceeded cost) ∧
        next = { e with cost } ∧ result = .error .workLimitExceeded := by
  unfold Expansion.expand at h
  split at h
  · cases h
  · next cost hbuild =>
    obtain ⟨rfl, rfl⟩ := Prod.mk.inj (Except.ok.inj h)
    exact .inr ⟨cost, hbuild, rfl, rfl⟩
  · next cost languages hbuild =>
    obtain ⟨rfl, rfl⟩ := Prod.mk.inj (Except.ok.inj h)
    exact .inl ⟨cost, languages, hbuild, rfl, rfl⟩

/-- What every step preserves is preserved by a row of steps. -/
lemma advance_preserves {motive : Expansion → Prop}
    (hstep : ∀ {e next : Expansion} {result : Except EnumerationError Unit}, motive e →
      e.expand.outcome = .ok (next, result) → motive next)
    {steps : ℕ} {last : Expansion} {exhaustive : Bool} (he : motive e)
    (h : (advance steps e).outcome = .ok (last, exhaustive)) : motive last := by
  induction steps generalizing e with
  | zero =>
    obtain ⟨rfl, _⟩ := Prod.mk.inj (Except.ok.inj h)
    exact he
  | succ steps ih =>
    rw [advance, Logged.outcome_bind] at h
    obtain ⟨⟨next, result⟩, hnext, h⟩ := bind_eq_ok_iff.1 h
    have hmotive := hstep he hnext
    cases result with
    | error failure =>
      obtain ⟨rfl, _⟩ := Prod.mk.inj (Except.ok.inj h)
      exact hmotive
    | ok =>
      by_cases hsize : next.size = e.size
      · simp only [if_pos hsize] at h
        obtain ⟨rfl, _⟩ := Prod.mk.inj (Except.ok.inj h)
        exact hmotive
      · simp only [if_neg hsize] at h
        exact ih hmotive h

lemma exists_advance_of_run {maxDepth : ℕ} {enumeration : Enumeration} {last : Expansion}
    (h : (e.run maxDepth).outcome = .ok (enumeration, last)) :
    ∃ exhaustive, (advance (maxDepth - e.depth) e).outcome = .ok (last, exhaustive) := by
  rw [Expansion.run, Logged.outcome_bind] at h
  obtain ⟨⟨final, exhaustive⟩, hadvance, h⟩ := bind_eq_ok_iff.1 h
  obtain ⟨_, rfl⟩ := Prod.mk.inj (Except.ok.inj h)
  exact ⟨exhaustive, hadvance⟩

/-- What holds at the start and is preserved by every step holds of every state. -/
theorem Reachable.invariant {motive : Expansion → Prop} (hstart : motive (.start g limit))
    (hstep : ∀ {e next : Expansion} {result : Except EnumerationError Unit}, motive e →
      e.expand.outcome = .ok (next, result) → motive next)
    (h : Reachable g limit e) : motive e := by
  induction h with
  | start => exact hstart
  | expand _ hexpand ih => exact hstep ih hexpand
  | run _ hrun ih =>
    obtain ⟨exhaustive, hadvance⟩ := exists_advance_of_run hrun
    exact advance_preserves hstep ih hadvance

lemma limit_of_expand {result : Except EnumerationError Unit}
    (h : e.expand.outcome = .ok (next, result)) : next.limit = e.limit := by
  rcases cases_of_expand h with ⟨_, _, _, rfl, _⟩ | ⟨_, _, rfl, _⟩
  · rfl
  · rfl

lemma Reachable.limit_eq (h : Reachable g limit e) : e.limit = limit := by
  apply h.invariant (motive := fun e => e.limit = limit)
  · rfl
  · intro e next result hlimit hstep
    exact (limit_of_expand hstep).trans hlimit

/-- The rows of trees that are put below the nonterminal of a rule. -/
def rows (e : Expansion) (rule : Rule) : List (List Tree) := rule.alternatives.flatMap e.products

/-- The trees of a list in order of first occurrence. -/
def dedup (trees : List Tree) : OrderedSet Tree := trees.foldl OrderedSet.insert .empty

lemma mem_of_mem_foldl_insert {trees : List Tree} {s : OrderedSet Tree} {tree : Tree}
    (h : tree ∈ (trees.foldl OrderedSet.insert s).toList) : tree ∈ s.toList ∨ tree ∈ trees := by
  induction trees generalizing s with
  | nil => exact .inl h
  | cons first trees ih =>
    rcases ih h with hmem | hmem
    · rw [OrderedSet.toList_insert] at hmem
      split at hmem
      · exact .inl hmem
      · rcases List.mem_append.1 hmem with hmem | hmem
        · exact .inl hmem
        · exact .inr (List.mem_cons.2 (.inl (List.mem_singleton.1 hmem)))
    · exact .inr (List.mem_cons_of_mem first hmem)

lemma mem_shapes_insert {s : OrderedSet Tree} {tree : Tree} {shape : Shape} :
    shape ∈ (s.insert tree).toList.map Tree.shape ↔
      shape ∈ s.toList.map Tree.shape ∨ shape = tree.shape := by
  rw [OrderedSet.toList_insert]
  split
  · next hknown =>
    obtain ⟨other, hother, heq⟩ := OrderedSet.contains_iff.1 hknown
    have hshape : tree.shape ∈ s.toList.map Tree.shape :=
      List.mem_map.2 ⟨other, hother, (Tree.beq_iff.1 heq).symm⟩
    constructor
    · exact .inl
    · rintro (h | rfl)
      · exact h
      · exact hshape
  · simp

lemma mem_shapes_foldl_insert {trees : List Tree} {s : OrderedSet Tree} {shape : Shape} :
    shape ∈ (trees.foldl OrderedSet.insert s).toList.map Tree.shape ↔
      shape ∈ s.toList.map Tree.shape ∨ shape ∈ trees.map Tree.shape := by
  induction trees generalizing s with
  | nil => simp
  | cons tree trees ih =>
    rw [List.foldl_cons, ih, mem_shapes_insert, List.map_cons, List.mem_cons, or_assoc]

lemma mem_of_mem_dedup {trees : List Tree} {tree : Tree} (h : tree ∈ (dedup trees).toList) :
    tree ∈ trees := by
  rcases mem_of_mem_foldl_insert h with hempty | hmem
  · cases hempty
  · exact hmem

lemma mem_shapes_dedup {trees : List Tree} {shape : Shape} :
    shape ∈ (dedup trees).toList.map Tree.shape ↔ shape ∈ trees.map Tree.shape := by
  rw [dedup, mem_shapes_foldl_insert]
  simp

/-- Trees that come again at the end are not kept again. -/
lemma dedup_append_of_mem {trees again : List Tree} (h : ∀ tree ∈ again, tree ∈ trees) :
    dedup (trees ++ again) = dedup trees := by
  have hcontains : ∀ tree ∈ again, (dedup trees).contains tree = true := by
    intro tree htree
    have hshape := mem_shapes_dedup.2 (List.mem_map_of_mem (f := Tree.shape) (h tree htree))
    obtain ⟨other, hother, hsame⟩ := List.mem_map.1 hshape
    exact OrderedSet.contains_iff.2 ⟨other, hother, Tree.beq_iff.2 hsame.symm⟩
  have hfold : again.foldl OrderedSet.insert (dedup trees) = dedup trees := by
    clear h
    induction again with
    | nil => rfl
    | cons tree again ih =>
      obtain ⟨htree, hrest⟩ := List.forall_mem_cons.1 hcontains
      rw [List.foldl_cons, OrderedSet.insert_of_contains htree]
      exact ih hrest
  rw [← hfold, dedup, List.foldl_append, dedup]

lemma build_eq_ok {symbol : Symbol} {harvest after : Harvest} {children : List Tree}
    (h : build limit symbol harvest children = .ok after) :
    ∃ tree, Tree.node symbol children = .ok tree ∧ after.trees = harvest.trees.insert tree := by
  unfold build at h
  split at h
  · cases h
  · next tree hnode =>
    dsimp only at h
    split at h
    · cases h
    · obtain rfl := Except.ok.inj h
      exact ⟨tree, hnode, rfl⟩

/-- Trees are kept in the order in which their rows come. -/
lemma foldlM_build_eq_ok {symbol : Symbol} {rows : List (List Tree)} {harvest last : Harvest}
    (h : rows.foldlM (build limit symbol) harvest = .ok last) :
    ∃ trees, rows.mapM (Tree.node symbol) = .ok trees ∧
      last.trees = trees.foldl OrderedSet.insert harvest.trees := by
  induction rows generalizing harvest with
  | nil =>
    obtain rfl := Except.ok.inj h
    exact ⟨[], rfl, rfl⟩
  | cons row rows ih =>
    obtain ⟨after, hafter, h⟩ := bind_eq_ok_iff.1 ((List.foldlM_cons ..).symm.trans h)
    obtain ⟨tree, hnode, htree⟩ := build_eq_ok hafter
    obtain ⟨trees, htrees, hlast⟩ := ih h
    refine ⟨tree :: trees, ?_, by rw [hlast, htree, List.foldl_cons]⟩
    simp only [List.mapM_cons, bind_eq_ok_iff]
    exact ⟨tree, hnode, trees, htrees, rfl⟩

lemma buildRule_eq (e : Expansion) (cost : ℕ) (rule : Rule) :
    e.buildRule cost rule = (e.rows rule).foldlM (build e.limit rule.lhs) ⟨cost, .empty⟩ := by
  rw [rows, foldlM_flatMap]
  rfl

/-- A language is what a step makes of a rule. -/
structure Deepens (e : Expansion) (rule : Rule) (language : Language) : Prop where
  symbol : language.symbol = rule.lhs
  trees : ∃ trees, (e.rows rule).mapM (Tree.node rule.lhs) = .ok trees ∧
    language.trees = (dedup trees).toList

/-- A finished step makes one language of every rule, all from the same old languages. -/
theorem deepens_of_buildRules {rules : List Rule} {cost last : ℕ} {languages : List Language}
    (h : e.buildRules cost rules = .ok (last, languages)) :
    List.Forall₂ e.Deepens rules languages := by
  induction rules generalizing cost last languages with
  | nil =>
    obtain ⟨_, rfl⟩ := Prod.mk.inj (Except.ok.inj h)
    exact .nil
  | cons rule rules ih =>
    rw [buildRules] at h
    obtain ⟨harvest, hharvest, h⟩ := bind_eq_ok_iff.1 h
    obtain ⟨⟨cost', languages'⟩, hrest, h⟩ := bind_eq_ok_iff.1 h
    obtain ⟨_, rfl⟩ := Prod.mk.inj (Except.ok.inj h)
    rw [buildRule_eq] at hharvest
    obtain ⟨trees, htrees, hlast⟩ := foldlM_build_eq_ok hharvest
    exact .cons ⟨rfl, trees, htrees, by rw [hlast]; rfl⟩ (ih hrest)

end Expansion

end ContextFree
