import ContextFree.Proofs.Exhausting
import ContextFree.Proofs.Overflow
import ContextFree.Proofs.Pumping

/-!
# Depths that suffice

With the largest work limit no step is given up, since costs saturate at that very word. A
grammar with finitely many derivation trees per nonterminal then runs out of new trees: none is
higher than the number `n` of nonterminals plus one, so all of them are found after `n` steps,
and step `n + 1` at the latest finds nothing new. The depth that is taken when none is asked for
goes further than that. All that can come in between is a tree too large to be measured.
-/
namespace ContextFree

namespace Expansion

variable {g : Grammar} {limit : ℕ} {e next : Expansion}

/-- A node that is built and paid for does not fail below the largest limit. -/
lemma fault_of_build {symbol : Symbol} {harvest : Harvest} {children : List Tree} {stop : Stop}
    (h : build Word.largest symbol harvest children = .error stop) :
    ∃ fault, stop = .fault fault ∧ Tree.node symbol children = .error fault := by
  unfold build at h
  split at h
  · next fault hnode =>
    exact ⟨fault, (Except.error.inj h).symm, hnode⟩
  · next tree hnode =>
    dsimp only at h
    rw [if_neg (Nat.not_lt.2 (Word.saturatingAdd_le _ _))] at h
    cases h

/-- A step that does not come to its end has a row that cannot be built and paid for. -/
lemma exists_of_buildRules_eq_error {rules : List Rule} {cost : ℕ} {stop : Stop}
    (h : e.buildRules cost rules = .error stop) :
    ∃ rule ∈ rules, ∃ row ∈ e.rows rule, ∃ harvest,
      build e.limit rule.lhs harvest row = .error stop := by
  induction rules generalizing cost with
  | nil => cases h
  | cons rule rules ih =>
    rw [buildRules] at h
    rcases bind_eq_error_iff.1 h with hrule | ⟨harvest, _, h⟩
    · rw [buildRule_eq] at hrule
      obtain ⟨before, row, hrow, hbuild⟩ := exists_of_foldlM_eq_error hrule
      exact ⟨rule, List.mem_cons_self, row, hrow, before, hbuild⟩
    · rcases bind_eq_error_iff.1 h with hrest | ⟨_, _, h⟩
      · obtain ⟨other, hother, hrow⟩ := ih hrest
        exact ⟨other, List.mem_cons_of_mem rule hother, hrow⟩
      · cases h

/-- An enumeration with the largest limit stops at a tree that is too large. -/
structure Overflows (g : Grammar) {α : Type} (outcome : Except Fault α) : Prop where
  fault : outcome = .error .addOverflow
  oversized : ∃ symbol shape, g.IsDerivation symbol shape ∧ shape.Oversized

/-- Below the largest limit a step is finished, unless it comes to a tree that is too large. -/
lemma expand_of_largest (h : Reachable g Word.largest e) :
    (∃ next, e.expand.outcome = .ok (next, .ok ())) ∨ Overflows g e.expand.outcome := by
  have hexact := h.exact
  cases hbuild : e.buildRules e.cost e.grammar.rules with
  | ok built =>
    left
    rw [Expansion.expand, hbuild]
    exact ⟨_, rfl⟩
  | error stop =>
    right
    obtain ⟨rule, hrule, row, hrow, harvest, hrowBuild⟩ := exists_of_buildRules_eq_error hbuild
    rw [h.limit_eq] at hrowBuild
    rw [hexact.grammar] at hrule
    obtain ⟨fault, rfl, hnode⟩ := fault_of_build hrowBuild
    have hbuilt : ∀ tree ∈ row, tree.Built :=
      fun tree htree => (hexact.grown_of_mem_rows hrow tree htree).built
    obtain ⟨rfl, hoversized⟩ := Tree.oversized_of_node hbuilt hnode
    constructor
    · rw [Expansion.expand, hbuild]
      rfl
    · exact ⟨rule.lhs, _, hexact.isDerivation_of_mem_rows hrule hrow, hoversized⟩

lemma size_eq_of_bounded (h : Reachable g limit e) (hbounded : g.Bounded (e.depth + 1))
    (hstep : e.expand.outcome = .ok (next, .ok ())) : next.size = e.size := by
  have hexact := h.exact
  have hnext := hexact.expand hstep
  rw [size, size, hexact.languages_eq, hnext.languages_eq]
  congr 1
  exact List.flatMap_congr fun symbol _ => derivations_of_step h hbounded ⟨_, hstep⟩ symbol

lemma outcome_advance_of_finished (steps : ℕ) (hstep : e.expand.outcome = .ok (next, .ok ())) :
    (advance (steps + 1) e).outcome =
      if next.size = e.size then .ok (next, true) else (advance steps next).outcome := by
  rw [advance, Logged.outcome_bind, hstep]
  exact apply_ite Logged.outcome (next.size = e.size) _ _

/-- Steps are taken until nothing new is found, one step after the last tree was found at the
latest. -/
lemma advance_of_bounded {bound steps : ℕ} (hbounded : g.Bounded (bound + 1))
    (h : Reachable g Word.largest e) (hdepth : e.depth ≤ bound)
    (hsteps : bound + 1 ≤ e.depth + steps) :
    (∃ last, (advance steps e).outcome = .ok (last, true) ∧ last.depth ≤ bound + 1) ∨
      Overflows g (advance steps e).outcome := by
  induction steps generalizing e with
  | zero => omega
  | succ steps ih =>
    rcases expand_of_largest h with ⟨next, hstep⟩ | ⟨hfault, hoversized⟩
    · have hnext : Reachable g Word.largest next := .expand h hstep
      have hdeeper := depth_of_expand hstep
      rw [outcome_advance_of_finished steps hstep]
      by_cases hsize : next.size = e.size
      · left
        rw [if_pos hsize]
        exact ⟨next, rfl, by omega⟩
      · -- at the full depth all trees are found, and the step would have left their number alone
        have hless : e.depth ≠ bound := by
          rintro rfl
          exact hsize (size_eq_of_bounded h hbounded hstep)
        rw [if_neg hsize]
        exact ih hnext (by omega) (by omega)
    · right
      rw [advance, Logged.outcome_bind, hfault]
      exact ⟨rfl, hoversized⟩

end Expansion

namespace Grammar

open Expansion

variable {g : Grammar}

lemma outcome_enumerate (g : Grammar) (limits : EnumerationLimits) :
    (g.enumerate limits).outcome =
      (advance (limits.maxDepthFor g) (.start g limits.work)).outcome.map
        fun (last, exhaustive) => ⟨last.startTrees, exhaustive, last.depth⟩ := by
  simp only [enumerate, Expansion.run, Logged.outcome_bind]
  rw [Expansion.start, Nat.sub_zero]
  cases (advance (limits.maxDepthFor g) ⟨g, limits.work, _, 0, 0⟩).outcome with
  | error fault => rfl
  | ok result => rfl

/-- A grammar with finitely many derivation trees per nonterminal is enumerated exhaustively
without a depth being asked for, or it has a derivation tree that is too large. -/
theorem enumerate_of_finitelyMany (hfinite : g.FinitelyMany) :
    (∃ enumeration, (g.enumerate ⟨Word.largest, none⟩).outcome = .ok enumeration ∧
      enumeration.exhaustive = true ∧ enumeration.depth ≤ g.nonterminals.length + 1 ∧
      ∀ start, g.start? = some start → g.Lists start enumeration.trees) ∨
    ((g.enumerate ⟨Word.largest, none⟩).outcome = .error .addOverflow ∧
      ∃ symbol shape, g.IsDerivation symbol shape ∧ shape.Oversized) := by
  have hbounded : g.Bounded (g.nonterminals.length + 1) :=
    fun symbol shape hshape => hfinite.height_le_of_isDerivation hshape
  have hstart : Reachable g Word.largest (.start g Word.largest) := .start
  have hsteps : g.nonterminals.length + 1 ≤ 0 + (g.nonterminals.length + 9) := by omega
  rw [outcome_enumerate]
  rcases advance_of_bounded hbounded hstart (Nat.zero_le _) hsteps with
    ⟨last, hadvance, hdepth⟩ | ⟨hfault, hoversized⟩
  · left
    have hlast : Reachable g Word.largest last := hstart.of_steps (steps_of_advance hadvance)
    have hfound : g.Bounded (last.depth + 1) :=
      (bounded_of_advance hstart hadvance).mono (Nat.le_succ last.depth)
    refine ⟨⟨last.startTrees, true, last.depth⟩, ?_, rfl, hdepth, fun start hsymbol => ?_⟩
    · exact congrArg _ hadvance
    · exact hlast.exact.lists_startTrees hfound hsymbol
  · right
    rw [EnumerationLimits.maxDepthFor]
    exact ⟨congrArg _ hfault, hoversized⟩

/-- Three nonterminals in a chain, and one that never ends: `S → A U | A A`, `A → B | `,
`B → b | b`, `U → a U`. -/
def chained : Grammar :=
  (((({} : Grammar).addAlternatives "S" "AU|AA").addAlternatives "A" "B|").addAlternatives
    "B" "b|b").addAlternatives "U" "aU"

/-- The nonterminals are four, the highest tree has four levels, and the fourth step is the one
that finds nothing new. -/
theorem enumerate_chained :
    chained.FinitelyMany ∧ chained.nonterminals.length = 4 ∧
      ∃ enumeration, (chained.enumerate ⟨Word.largest, none⟩).outcome = .ok enumeration ∧
        enumeration.exhaustive = true ∧ enumeration.depth = 4 ∧ enumeration.trees.length = 4 ∧
        ∀ start, chained.start? = some start → chained.Lists start enumeration.trees := by
  have hsteps : (advance 5 (.start chained 1000)).outcome.map Prod.snd = .ok true := by
    decide +kernel
  obtain ⟨⟨last, exhaustive⟩, hadvance, hexhaustive⟩ := map_eq_ok_iff.1 hsteps
  obtain rfl : exhaustive = true := hexhaustive
  have hfinite := (bounded_of_advance .start hadvance).finitelyMany
  have hrun : (chained.enumerate ⟨Word.largest, none⟩).outcome.map
      (fun enumeration => (enumeration.depth, enumeration.trees.length)) = .ok (4, 4) := by
    decide +kernel
  obtain ⟨enumeration, henumerate, hview⟩ := map_eq_ok_iff.1 hrun
  obtain ⟨hdepth, hlength⟩ := Prod.mk.inj hview
  rcases enumerate_of_finitelyMany hfinite with ⟨other, hother, hexhaustive, _, hlists⟩ | ⟨hfault, _⟩
  · obtain rfl : enumeration = other := Except.ok.inj (henumerate.symm.trans hother)
    exact ⟨hfinite, by decide, enumeration, henumerate, hexhaustive, hdepth, hlength, hlists⟩
  · rw [henumerate] at hfault
    cases hfault

end Grammar

end ContextFree
