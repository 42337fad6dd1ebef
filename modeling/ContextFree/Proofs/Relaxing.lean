import ContextFree.Proofs.Repeating
import ContextFree.Proofs.Sufficing

/-!
# Larger limits

The trees of a nonterminal depend on the depth alone, and a deeper state holds those of a lower
one in the same order, with higher trees in between. The limit decides only which steps are
finished: a step that is finished within a limit is the same step within a larger one.

So a run within larger limits goes through all states of the run within the smaller ones, and goes
on from there. If the first run has ended because its last step found nothing new, the second ends
at the same step.
-/
namespace ContextFree

lemma Repeats.refl (g : Grammar) : Repeats g g where
  names := rfl
  nonterminals := rfl
  alternatives := fun _ => ⟨[], (List.append_nil _).symm, by simp⟩

namespace Expansion

variable {g : Grammar} {limit limit' : ℕ} {e e' before next last last' : Expansion}

/-! ### Deeper states -/

/-- What a step makes of a state holds the trees of that state, in the same order. -/
lemma Layered.sublist_of_madeFrom (h : Layered g before) (hmade : MadeFrom g before e)
    {symbol : Symbol} (hsymbol : symbol ∈ g.nonterminals) :
    (before.derivations symbol).Sublist (e.derivations symbol) := by
  obtain ⟨rule, hrule, rfl, language, hdeepens, htrees⟩ := hmade.derivations symbol hsymbol
  rw [h rule hrule language hdeepens, htrees]
  exact List.filter_sublist

/-- A deeper state holds the trees of a lower one, whatever the limits are. -/
theorem Reachable.sublist_of_depth_le (h : Reachable g limit e) (h' : Reachable g limit' e')
    (hdepth : e.depth ≤ e'.depth) (symbol : Symbol) :
    (e.derivations symbol).Sublist (e'.derivations symbol) := by
  by_cases hsymbol : symbol ∈ g.nonterminals
  · induction hlevel : e'.depth generalizing e' with
    | zero =>
      have hequal : e'.depth = e.depth := by omega
      rw [(Repeats.refl g).derivations_of_depth_eq h h' hequal symbol hsymbol]
    | succ level ih =>
      rcases Nat.eq_or_lt_of_le hdepth with hequal | hless
      · rw [(Repeats.refl g).derivations_of_depth_eq h h' hequal.symm symbol hsymbol]
      · obtain ⟨before, hbefore, hmade⟩ := h'.exists_madeFrom (by omega)
        have hbeforeDepth := hmade.depth
        exact (ih hbefore (by omega) (by omega)).trans
          (hbefore.layered.sublist_of_madeFrom hmade hsymbol)
  · rw [h.exact.derivations_of_terminal hsymbol]
    exact List.nil_sublist _

lemma Reachable.sublist_startTrees (h : Reachable g limit e) (h' : Reachable g limit' e')
    (hdepth : e.depth ≤ e'.depth) : e.startTrees.Sublist e'.startTrees := by
  rw [startTrees, startTrees, h.exact.grammar, h'.exact.grammar]
  cases g.start? with
  | none => exact .slnil
  | some start => exact h.sublist_of_depth_le h' hdepth start

/-! ### Finished steps -/

def relax (e : Expansion) (limit : ℕ) : Expansion := { e with limit }

@[simp] lemma size_relax (e : Expansion) (limit : ℕ) : (e.relax limit).size = e.size := rfl

/-- Rows are not a matter of the limit. -/
lemma rows_relax (e : Expansion) (limit : ℕ) : (e.relax limit).rows = e.rows := by
  have hproducts : (e.relax limit).products = e.products := products_congr fun _ => rfl
  funext rule
  rw [rows, rows, hproducts]

lemma build_of_larger {symbol : Symbol} {harvest after : Harvest} {row : List Tree}
    (hlimit : limit ≤ limit') (h : build limit symbol harvest row = .ok after) :
    build limit' symbol harvest row = .ok after := by
  unfold build at h ⊢
  split at h
  · cases h
  · next tree hnode =>
    dsimp only at h ⊢
    split at h
    · cases h
    · next hcost => rwa [if_neg fun habove => hcost (hlimit.trans_lt habove)]

lemma buildRules_relax (hlimit : e.limit ≤ limit') {rules : List Rule} {cost total : ℕ}
    {languages : List Language} (h : e.buildRules cost rules = .ok (total, languages)) :
    (e.relax limit').buildRules cost rules = .ok (total, languages) := by
  induction rules generalizing cost total languages with
  | nil => exact h
  | cons rule rules ih =>
    rw [buildRules, bind_eq_ok_iff] at h ⊢
    obtain ⟨harvest, hharvest, h⟩ := h
    obtain ⟨⟨_, _⟩, hrest, h⟩ := bind_eq_ok_iff.1 h
    refine ⟨harvest, ?_, bind_eq_ok_iff.2 ⟨_, ih hrest, h⟩⟩
    rw [buildRule_eq] at hharvest ⊢
    rw [rows_relax]
    exact foldlM_eq_ok_of_turns (fun _ _ _ hbuild => build_of_larger hlimit hbuild) hharvest

/-- A finished step is the same within a larger limit. -/
lemma expand_relax (hlimit : e.limit ≤ limit') (h : e.expand.outcome = .ok (next, .ok ())) :
    (e.relax limit').expand.outcome = .ok (next.relax limit', .ok ()) := by
  rcases cases_of_expand h with ⟨cost, languages, hbuild, rfl, _⟩ | ⟨_, _, _, hfailed⟩
  · have hrelaxed : (e.relax limit').buildRules (e.relax limit').cost
        (e.relax limit').grammar.rules = .ok (cost, languages) := buildRules_relax hlimit hbuild
    rw [Expansion.expand, hrelaxed]
    rfl
  · cases hfailed

lemma depth_le_of_advance {steps : ℕ} {exhaustive : Bool}
    (h : (advance steps e).outcome = .ok (last, exhaustive)) : e.depth ≤ last.depth := by
  apply advance_preserves (motive := fun later => e.depth ≤ later.depth) ?_ le_rfl h
  intro later next result hlater hstep
  exact hlater.trans (depth_le_of_step ⟨result, hstep⟩)

/-- A row of steps that is given up at its first step has come no further. -/
lemma advance_of_givenUp {failure : EnumerationError} (steps : ℕ)
    (h : e.expand.outcome = .ok (next, .error failure)) :
    (advance (steps + 1) e).outcome = .ok (next, false) ∧ next.depth = e.depth := by
  constructor
  · rw [advance, Logged.outcome_bind, h]
    rfl
  · rcases cases_of_expand h with ⟨_, _, _, _, hfinished⟩ | ⟨_, _, rfl, _⟩
    · cases hfinished
    · rfl

/-- A longer row of steps within a larger limit comes at least as deep, and it ends in the same
state as an exhaustive one. -/
theorem advance_relax {steps steps' : ℕ} {exhaustive exhaustive' : Bool}
    (hlimit : e.limit ≤ limit') (hsteps : steps ≤ steps')
    (h : (advance steps e).outcome = .ok (last, exhaustive))
    (h' : (advance steps' (e.relax limit')).outcome = .ok (last', exhaustive')) :
    last.depth ≤ last'.depth ∧
      (exhaustive = true → exhaustive' = true ∧ last' = last.relax limit') := by
  have hdepth : e.depth ≤ last'.depth := depth_le_of_advance (e := e.relax limit') h'
  induction steps generalizing e steps' with
  | zero =>
    obtain ⟨rfl, rfl⟩ := Prod.mk.inj (Except.ok.inj h)
    exact ⟨hdepth, fun hexhaustive => nomatch hexhaustive⟩
  | succ steps ih =>
    obtain ⟨more, rfl⟩ : ∃ more, steps' = more + 1 := ⟨steps' - 1, by omega⟩
    have hexpand := h
    rw [advance, Logged.outcome_bind] at hexpand
    obtain ⟨⟨next, result⟩, hnext, _⟩ := bind_eq_ok_iff.1 hexpand
    cases result with
    | error failure =>
      -- the smaller limit ends the first row of steps here
      obtain ⟨hgivenUp, hsame⟩ := advance_of_givenUp steps hnext
      rw [hgivenUp] at h
      obtain ⟨rfl, rfl⟩ := Prod.mk.inj (Except.ok.inj h)
      exact ⟨hsame.le.trans hdepth, fun hexhaustive => nomatch hexhaustive⟩
    | ok =>
      rw [outcome_advance_of_finished steps hnext] at h
      rw [outcome_advance_of_finished more (expand_relax hlimit hnext), size_relax, size_relax]
        at h'
      by_cases hsize : next.size = e.size
      · rw [if_pos hsize] at h h'
        obtain ⟨rfl, rfl⟩ := Prod.mk.inj (Except.ok.inj h)
        obtain ⟨rfl, rfl⟩ := Prod.mk.inj (Except.ok.inj h')
        exact ⟨le_rfl, fun _ => ⟨rfl, rfl⟩⟩
      · rw [if_neg hsize] at h h'
        exact ih ((limit_of_expand hnext).trans_le hlimit) (Nat.le_of_succ_le_succ hsteps) h h'
          (depth_le_of_advance (e := next.relax limit') h')

end Expansion

namespace Grammar

open Expansion

/-- The trees of a state are those of every deeper one, in the same order, with others left out. An
enumeration within larger limits comes at least as deep, has the trees in the same order, and it is
the same if the first one was exhaustive. -/
theorem enumerate_of_larger_limits (g : Grammar) :
    (∀ limit limit' e e', Reachable g limit e → Reachable g limit' e' → e.depth ≤ e'.depth →
      ∀ symbol, (e.derivations symbol).Sublist (e'.derivations symbol)) ∧
    ∀ limits limits' : EnumerationLimits, limits.work ≤ limits'.work →
      limits.maxDepthFor g ≤ limits'.maxDepthFor g →
      ∀ enumeration enumeration', (g.enumerate limits).outcome = .ok enumeration →
        (g.enumerate limits').outcome = .ok enumeration' →
        enumeration.depth ≤ enumeration'.depth ∧
          enumeration.trees.Sublist enumeration'.trees ∧
          (enumeration.exhaustive = true → enumeration' = enumeration) := by
  constructor
  · intro limit limit' e e' he he' hdepth
    exact he.sublist_of_depth_le he' hdepth
  · intro limits limits' hwork hdepth enumeration enumeration' h h'
    rw [outcome_enumerate, map_eq_ok_iff] at h h'
    obtain ⟨⟨last, exhaustive⟩, hadvance, rfl⟩ := h
    obtain ⟨⟨last', exhaustive'⟩, hadvance', rfl⟩ := h'
    have hlast : Reachable g limits.work last :=
      Reachable.start.of_steps (steps_of_advance hadvance)
    have hlast' : Reachable g limits'.work last' :=
      Reachable.start.of_steps (steps_of_advance hadvance')
    obtain ⟨hdeeper, hsame⟩ := advance_relax hwork hdepth hadvance hadvance'
    refine ⟨hdeeper, hlast.sublist_startTrees hlast' hdeeper, fun hexhaustive => ?_⟩
    obtain rfl : exhaustive = true := hexhaustive
    obtain ⟨rfl, rfl⟩ := hsame rfl
    rfl

/-- Within a cost of 30 two of three steps are finished, and the three trees are among the thirteen
that a cost of 300 leads to. An exhaustive enumeration stays as it is. A state after one step has no
tree of the start symbol yet, and a state after two steps has both, whatever their limits are. -/
theorem enumerate_of_larger_limits_brackets :
    (∃ few many, (brackets.enumerate ⟨30, some 3⟩).outcome = .ok few ∧
      (brackets.enumerate ⟨300, some 3⟩).outcome = .ok many ∧ few.depth = 2 ∧ many.depth = 3 ∧
      few.exhaustive = false ∧ few.trees.length = 3 ∧ many.trees.length = 13 ∧
      few.trees.Sublist many.trees) ∧
    (∃ enumeration, (twoWords.enumerate ⟨30, none⟩).outcome = .ok enumeration ∧
      enumeration.exhaustive = true ∧ enumeration.depth = 3 ∧
      (twoWords.enumerate ⟨1000, some 20⟩).outcome = .ok enumeration) ∧
    ∃ e e', Reachable twoWords 24 e ∧ Reachable twoWords 100 e' ∧ e.depth = 1 ∧ e'.depth = 2 ∧
      (e.derivations ⟨0⟩).length = 0 ∧ (e'.derivations ⟨0⟩).length = 2 ∧
      ∀ symbol, (e.derivations symbol).Sublist (e'.derivations symbol) := by
  refine ⟨?_, ?_, ?_⟩
  · have hfew : (brackets.enumerate ⟨30, some 3⟩).outcome.map (fun enumeration =>
        (enumeration.depth, enumeration.exhaustive, enumeration.trees.length)) =
        .ok (2, false, 3) := by decide +kernel
    have hmany : (brackets.enumerate ⟨300, some 3⟩).outcome.map (fun enumeration =>
        (enumeration.depth, enumeration.trees.length)) = .ok (3, 13) := by decide +kernel
    obtain ⟨few, hfew, hview⟩ := map_eq_ok_iff.1 hfew
    obtain ⟨many, hmany, hview'⟩ := map_eq_ok_iff.1 hmany
    simp only [Prod.mk.injEq] at hview hview'
    obtain ⟨hdepth, hexhaustive, hlength⟩ := hview
    obtain ⟨hdepth', hlength'⟩ := hview'
    obtain ⟨_, hsublist, _⟩ := (enumerate_of_larger_limits brackets).2 ⟨30, some 3⟩ ⟨300, some 3⟩
      (by decide) le_rfl few many hfew hmany
    exact ⟨few, many, hfew, hmany, hdepth, hdepth', hexhaustive, hlength, hlength', hsublist⟩
  · have hsmall : (twoWords.enumerate ⟨30, none⟩).outcome.map (fun enumeration =>
        (enumeration.exhaustive, enumeration.depth)) = .ok (true, 3) := by decide +kernel
    have hlarge : (twoWords.enumerate ⟨1000, some 20⟩).outcome.map Enumeration.depth =
        .ok 3 := by decide +kernel
    obtain ⟨enumeration, hsmall, hview⟩ := map_eq_ok_iff.1 hsmall
    obtain ⟨other, hlarge, _⟩ := map_eq_ok_iff.1 hlarge
    obtain ⟨hexhaustive, hdepth⟩ := Prod.mk.inj hview
    obtain ⟨_, _, hsame⟩ := (enumerate_of_larger_limits twoWords).2 ⟨30, none⟩ ⟨1000, some 20⟩
      (by decide) (by decide) enumeration other hsmall hlarge
    exact ⟨enumeration, hsmall, hexhaustive, hdepth, hsame hexhaustive ▸ hlarge⟩
  · have hone : ((start twoWords 24).run 1).outcome.map (fun ended =>
        (ended.2.depth, (ended.2.derivations ⟨0⟩).length)) = .ok (1, 0) := by decide +kernel
    have htwo : ((start twoWords 100).run 2).outcome.map (fun ended =>
        (ended.2.depth, (ended.2.derivations ⟨0⟩).length)) = .ok (2, 2) := by decide +kernel
    obtain ⟨⟨_, e⟩, hrun, hview⟩ := map_eq_ok_iff.1 hone
    obtain ⟨⟨_, e'⟩, hrun', hview'⟩ := map_eq_ok_iff.1 htwo
    obtain ⟨hdepth, hlength⟩ := Prod.mk.inj hview
    obtain ⟨hdepth', hlength'⟩ := Prod.mk.inj hview'
    have hle : e.depth ≤ e'.depth := hdepth.trans_le (hdepth' ▸ by decide)
    have he : Reachable twoWords 24 e := .run .start hrun
    have he' : Reachable twoWords 100 e' := .run .start hrun'
    exact ⟨e, e', he, he', hdepth, hdepth', hlength, hlength',
      (enumerate_of_larger_limits twoWords).1 24 100 e e' he he' hle⟩

end Grammar

end ContextFree
