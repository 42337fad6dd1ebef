import ContextFree.Proofs.Exhausting
import Mathlib

/-!
# The account of an enumeration

A step pays for its trees one by one, and it is given up at the first of them that takes the
total above the limit. Sums and products that saturate on the way come to the same total as an
exact sum that is cut at the largest word in the end (`bill`), so the account of a step can be
read off the trees it would build.

The cost of a step that was given up is never taken back. Trees are built from the languages at
hand, which have not changed, so every later step meets the same first tree and is given up at it.
Hence the total stands above the limit from the first step that is given up, and not before.
-/
namespace ContextFree

open Relation

namespace Expansion

variable {g : Grammar} {limit cost : ℕ} {e next last : Expansion} {tree : Tree}
  {trees : List Tree} {i : ℕ}

/-! ### What a step builds and pays -/

/-- The nodes to be built for a rule: the nonterminal and a row of trees to stand below it. -/
def jobs (e : Expansion) (rule : Rule) : List (Symbol × List Tree) :=
  (e.rows rule).map (Prod.mk rule.lhs)

/-- The trees that a step would build if there were no limit, repeated ones included. -/
def prospects (e : Expansion) : Except Fault (List Tree) :=
  (e.grammar.rules.flatMap e.jobs).mapM fun job => Tree.node job.1 job.2

/-- The total after the first `count` trees are paid for, cut at the largest word. -/
def bill (cost : ℕ) (trees : List Tree) (count : ℕ) : ℕ :=
  min Word.largest (cost + ((trees.take count).map fun tree => tree.height * tree.width).sum)

def charge (limit cost : ℕ) (tree : Tree) : Except Stop ℕ :=
  if limit < Word.saturatingAdd cost tree.cost then
    .error (.limitExceeded (Word.saturatingAdd cost tree.cost))
  else .ok (Word.saturatingAdd cost tree.cost)

def pay (limit cost : ℕ) (job : Symbol × List Tree) : Except Stop ℕ :=
  match Tree.node job.1 job.2 with
  | .error fault => .error (.fault fault)
  | .ok tree => charge limit cost tree

/-- The total that a step comes to. -/
def payment (e : Expansion) : Except Stop ℕ :=
  (e.grammar.rules.flatMap e.jobs).foldlM (pay e.limit) e.cost

lemma map_cost_build (limit : ℕ) (symbol : Symbol) (harvest : Harvest) (row : List Tree) :
    (build limit symbol harvest row).map Harvest.cost = pay limit harvest.cost (symbol, row) := by
  unfold build pay charge
  cases Tree.node symbol row with
  | error fault => rfl
  | ok tree => exact apply_ite (Except.map Harvest.cost) _ _ _

lemma map_cost_buildRule (e : Expansion) (cost : ℕ) (rule : Rule) :
    (e.buildRule cost rule).map Harvest.cost = (e.jobs rule).foldlM (pay e.limit) cost := by
  rw [buildRule_eq]
  exact map_foldlM (map_cost_build e.limit rule.lhs) (e.rows rule) _

/-- The trees that are kept play no part in what is paid. -/
lemma map_fst_buildRules (e : Expansion) (cost : ℕ) (rules : List Rule) :
    (e.buildRules cost rules).map Prod.fst = (rules.flatMap e.jobs).foldlM (pay e.limit) cost := by
  induction rules generalizing cost with
  | nil => rfl
  | cons rule rules ih =>
    rw [buildRules, List.flatMap_cons, List.foldlM_append, ← map_cost_buildRule]
    cases e.buildRule cost rule with
    | error stop => rfl
    | ok harvest =>
      refine Eq.trans ?_ (ih harvest.cost)
      show (e.buildRules harvest.cost rules >>= _).map Prod.fst = _
      cases e.buildRules harvest.cost rules with
      | error stop => rfl
      | ok built => rfl

lemma expand_of_payment (h : e.payment = .ok cost) :
    ∃ languages,
      e.expand.outcome = .ok ({ e with languages, cost, depth := e.depth + 1 }, .ok ()) := by
  rw [payment, ← map_fst_buildRules, map_eq_ok_iff] at h
  obtain ⟨⟨_, languages⟩, hbuild, rfl⟩ := h
  refine ⟨languages, ?_⟩
  rw [Expansion.expand, hbuild]
  rfl

lemma expand_of_payment_eq_error (h : e.payment = .error (.limitExceeded cost)) :
    e.expand.outcome = .ok ({ e with cost }, .error .workLimitExceeded) := by
  rw [payment, ← map_fst_buildRules, map_eq_error_iff] at h
  rw [Expansion.expand, h]
  rfl

/-- What a step can do, told by its account. -/
lemma payment_of_expand {result : Except EnumerationError Unit}
    (h : e.expand.outcome = .ok (next, result)) :
    e.payment = .ok next.cost ∧ result = .ok () ∨
      e.payment = .error (.limitExceeded next.cost) ∧ next = { e with cost := next.cost } ∧
        result = .error .workLimitExceeded := by
  rw [payment, ← map_fst_buildRules]
  rcases cases_of_expand h with ⟨_, _, hbuild, rfl, hresult⟩ | ⟨_, hbuild, rfl, hresult⟩
  · left
    rw [hbuild]
    exact ⟨rfl, hresult⟩
  · right
    rw [hbuild]
    exact ⟨rfl, rfl, hresult⟩

/-! ### The bill -/

@[simp] lemma bill_nil (hcost : cost ≤ Word.largest) (count : ℕ) : bill cost [] count = cost := by
  simp [bill, hcost]

/-- Saturating on the way does not change the total. -/
lemma bill_cons (cost : ℕ) (tree : Tree) (trees : List Tree) (count : ℕ) :
    bill cost (tree :: trees) (count + 1) =
      bill (Word.saturatingAdd cost tree.cost) trees count := by
  rw [bill, bill, List.take_succ_cons, List.map_cons, List.sum_cons, Word.saturatingAdd, Tree.cost,
    Word.saturatingMul]
  generalize tree.height * tree.width = area
  omega

lemma bill_one (cost : ℕ) (tree : Tree) (trees : List Tree) :
    bill cost (tree :: trees) 1 = Word.saturatingAdd cost tree.cost := by
  rw [bill_cons, bill, List.take_zero, List.map_nil, List.sum_nil, Nat.add_zero]
  exact min_eq_right (Word.saturatingAdd_le _ _)

/-- All trees are paid for when no total on the way is above the limit. -/
lemma foldlM_charge (hcost : cost ≤ Word.largest)
    (h : ∀ i < trees.length, bill cost trees (i + 1) ≤ limit) :
    trees.foldlM (charge limit) cost = .ok (bill cost trees trees.length) := by
  induction trees generalizing cost with
  | nil =>
    rw [bill_nil hcost]
    rfl
  | cons tree trees ih =>
    have hfirst := h 0 (Nat.succ_pos trees.length)
    rw [bill_one] at hfirst
    rw [List.foldlM_cons, charge, if_neg (Nat.not_lt.2 hfirst), List.length_cons, bill_cons]
    refine ih (Word.saturatingAdd_le _ _) fun i hi => ?_
    rw [← bill_cons]
    exact h (i + 1) (Nat.succ_lt_succ hi)

/-- Payment ends at the first tree that takes the total above the limit. -/
lemma foldlM_charge_eq_error (hi : i < trees.length) (habove : limit < bill cost trees (i + 1))
    (hbelow : ∀ j < i, bill cost trees (j + 1) ≤ limit) :
    trees.foldlM (charge limit) cost = .error (.limitExceeded (bill cost trees (i + 1))) := by
  induction trees generalizing cost i with
  | nil => cases hi
  | cons tree trees ih =>
    rw [List.foldlM_cons, charge]
    cases i with
    | zero =>
      rw [bill_one] at habove ⊢
      rw [if_pos habove]
      rfl
    | succ i =>
      have hfirst := hbelow 0 (Nat.succ_pos i)
      rw [bill_one] at hfirst
      rw [bill_cons] at habove ⊢
      rw [if_neg (Nat.not_lt.2 hfirst)]
      refine ih (Nat.lt_of_succ_lt_succ hi) habove fun j hj => ?_
      rw [← bill_cons]
      exact hbelow (j + 1) (Nat.succ_lt_succ hj)

/-- When every node can be built, a step does nothing but pay for the trees. -/
lemma payment_eq (h : e.prospects = .ok trees) :
    e.payment = trees.foldlM (charge e.limit) e.cost := by
  rw [prospects, mapM_eq_ok_iff] at h
  rw [payment]
  generalize e.cost = cost
  generalize e.grammar.rules.flatMap e.jobs = jobs at h
  induction h generalizing cost with
  | nil => rfl
  | @cons job tree jobs trees hnode _ ih =>
    rw [List.foldlM_cons, List.foldlM_cons, pay, hnode]
    exact bind_congr ih

/-! ### Steps that are given up -/

/-- One state comes after another by a step or by a run. -/
def Follows (e next : Expansion) : Prop :=
  Steps e next ∨ ∃ maxDepth enumeration, (e.run maxDepth).outcome = .ok (enumeration, next)

lemma Follows.steps (h : Follows e next) : ReflTransGen Steps e next := by
  rcases h with hstep | ⟨maxDepth, enumeration, hrun⟩
  · exact .single hstep
  · obtain ⟨exhaustive, hadvance⟩ := exists_advance_of_run hrun
    exact steps_of_advance hadvance

lemma pay_eq_ok {job : Symbol × List Tree} {total : ℕ} (h : pay limit cost job = .ok total) :
    total ≤ limit ∧ total ≤ Word.largest := by
  unfold pay charge at h
  split at h
  · cases h
  · split at h
    · cases h
    · next hle =>
      obtain rfl := Except.ok.inj h
      exact ⟨Nat.le_of_not_lt hle, Word.saturatingAdd_le _ _⟩

lemma pay_eq_limitExceeded {job : Symbol × List Tree} {total : ℕ}
    (h : pay limit cost job = .error (.limitExceeded total)) :
    (∃ tree, Tree.node job.1 job.2 = .ok tree) ∧ limit < total ∧ total ≤ Word.largest := by
  unfold pay charge at h
  split at h
  · cases h
  · next tree hnode =>
    split at h
    · next hlt =>
      obtain rfl := Stop.limitExceeded.inj (Except.error.inj h)
      exact ⟨⟨tree, hnode⟩, hlt, Word.saturatingAdd_le _ _⟩
    · cases h

/-- A total above the limit, and a tree to be paid for next. -/
structure Spent (e : Expansion) : Prop where
  above : e.limit < e.cost
  le_largest : e.cost ≤ Word.largest
  due : ∃ job later tree, e.grammar.rules.flatMap e.jobs = job :: later ∧
    Tree.node job.1 job.2 = .ok tree

lemma jobs_of_cost (e : Expansion) (cost : ℕ) : jobs { e with cost } = e.jobs := by
  funext rule
  rw [jobs, jobs, rows, rows, products_of_cost]

/-- A step that is given up leaves the total above the limit, and its first tree is there to be
built again. -/
lemma spent_of_payment (h : e.payment = .error (.limitExceeded cost)) :
    Spent { e with cost } := by
  obtain ⟨_, _, _, hpay⟩ := exists_of_foldlM_eq_error h
  obtain ⟨_, habove, hlargest⟩ := pay_eq_limitExceeded hpay
  refine ⟨habove, hlargest, ?_⟩
  rw [jobs_of_cost]
  rw [payment] at h
  cases hjobs : e.grammar.rules.flatMap e.jobs with
  | nil =>
    rw [hjobs] at h
    cases h
  | cons job later =>
    refine ⟨job, later, ?_⟩
    rw [hjobs, List.foldlM_cons, bind_eq_error_iff] at h
    rcases h with hfirst | ⟨total, hfirst, _⟩
    · obtain ⟨⟨tree, hnode⟩, _⟩ := pay_eq_limitExceeded hfirst
      exact ⟨tree, rfl, hnode⟩
    · unfold pay at hfirst
      split at hfirst
      · cases hfirst
      · next tree hnode => exact ⟨tree, rfl, hnode⟩

namespace Spent

lemma expand (h : e.Spent) : ∃ cost, Spent { e with cost } ∧
    e.expand.outcome = .ok ({ e with cost }, .error .workLimitExceeded) := by
  obtain ⟨job, later, tree, hjobs, hnode⟩ := h.due
  have habove : e.limit < Word.saturatingAdd e.cost tree.cost := by
    have hlimit := h.above
    have hlargest := h.le_largest
    rw [Word.saturatingAdd]
    omega
  have hpayment : e.payment =
      .error (.limitExceeded (Word.saturatingAdd e.cost tree.cost)) := by
    rw [payment, hjobs, List.foldlM_cons, pay, hnode]
    dsimp only
    rw [charge, if_pos habove]
    rfl
  exact ⟨_, spent_of_payment hpayment, expand_of_payment_eq_error hpayment⟩

lemma of_follows (h : e.Spent) (hfollows : ReflTransGen Follows e last) :
    ∃ cost, last = { e with cost } ∧ last.Spent := by
  have hsteps : ReflTransGen Steps e last :=
    reflTransGen_closed (fun _ _ hstep => Follows.steps hstep) _ _ hfollows
  clear hfollows
  induction hsteps with
  | refl => exact ⟨e.cost, rfl, h⟩
  | tail _ hstep ih =>
    obtain ⟨_, rfl, hspent⟩ := ih
    obtain ⟨result, hexpand⟩ := hstep
    obtain ⟨cost, hspent', hexpand'⟩ := hspent.expand
    rw [hexpand'] at hexpand
    obtain ⟨rfl, _⟩ := Prod.mk.inj (Except.ok.inj hexpand)
    exact ⟨cost, rfl, hspent'⟩

end Spent

/-! ### The results so far -/

/-- The results of the steps that led to a state, the first one first. -/
inductive History (g : Grammar) (limit : ℕ) :
    List (Except EnumerationError Unit) → Expansion → Prop
  | start : History g limit [] (.start g limit)
  | expand {results : List (Except EnumerationError Unit)} {e next : Expansion}
      {result : Except EnumerationError Unit} (before : History g limit results e)
      (step : e.expand.outcome = .ok (next, result)) : History g limit (results ++ [result]) next

lemma Reachable.exists_history (h : Reachable g limit e) : ∃ results, History g limit results e := by
  apply h.invariant (motive := fun e => ∃ results, History g limit results e)
  · exact ⟨[], .start⟩
  · rintro e next result ⟨results, hresults⟩ hstep
    exact ⟨results ++ [result], .expand hresults hstep⟩

namespace History

variable {results : List (Except EnumerationError Unit)}

lemma reachable (h : History g limit results e) : Reachable g limit e := by
  induction h with
  | start => exact .start
  | expand _ hstep ih => exact .expand ih hstep

/-- As long as every step was finished the total is within the limit, and from the first one that
was given up it is above. -/
lemma within_or_spent (h : History g limit results e) :
    ((∀ result ∈ results, result = .ok ()) ∧ e.cost ≤ limit ∧ e.cost ≤ Word.largest) ∨
      (¬∀ result ∈ results, result = .ok ()) ∧ e.Spent := by
  induction h with
  | start => exact .inl ⟨by simp, Nat.zero_le limit, Nat.zero_le _⟩
  | @expand results e next result hbefore hstep ih =>
    have hlimit := hbefore.reachable.limit_eq
    simp only [List.forall_mem_append, List.forall_mem_singleton]
    rcases ih with ⟨hresults, hcost, hlargest⟩ | ⟨hresults, hspent⟩
    · rcases payment_of_expand hstep with ⟨hpayment, rfl⟩ | ⟨hpayment, hnext, rfl⟩
      · left
        have hpaid := foldlM_preserves (motive := fun total => total ≤ limit ∧ total ≤ Word.largest)
          (fun _ _ _ _ hpay => hlimit ▸ pay_eq_ok hpay) ⟨hcost, hlargest⟩ hpayment
        exact ⟨⟨hresults, rfl⟩, hpaid⟩
      · right
        rw [hnext]
        exact ⟨fun hall => (nomatch hall.2), spent_of_payment hpayment⟩
    · obtain ⟨cost, hspent', hexpand⟩ := hspent.expand
      rw [hexpand] at hstep
      obtain ⟨rfl, rfl⟩ := Prod.mk.inj (Except.ok.inj hstep)
      exact .inr ⟨fun hall => hresults hall.1, hspent'⟩

lemma cost_le_iff (h : History g limit results e) :
    e.cost ≤ limit ↔ ∀ result ∈ results, result = .ok () := by
  rcases h.within_or_spent with ⟨hresults, hcost, _⟩ | ⟨hresults, hspent⟩
  · exact ⟨fun _ => hresults, fun _ => hcost⟩
  · have habove := hspent.above
    rw [h.reachable.limit_eq] at habove
    exact ⟨fun hcost => absurd habove (Nat.not_lt.2 hcost), fun hall => absurd hall hresults⟩

end History

lemma Reachable.cost_le_largest (h : Reachable g limit e) : e.cost ≤ Word.largest := by
  obtain ⟨results, hresults⟩ := h.exists_history
  rcases hresults.within_or_spent with ⟨_, _, hlargest⟩ | ⟨_, hspent⟩
  · exact hlargest
  · exact hspent.le_largest

/-- In every state the account is exact. A step is given up when the bill for its trees, cut at
the largest word, goes above the limit; it leaves the bill up to the first tree that does, all else
is as before, and every later step is given up as well, again with nothing but the cost changed.
Otherwise the step is finished and leaves the whole bill. So the cost is within the limit exactly
in those states before which no step was given up. -/
theorem account_of_reachable (h : Reachable g limit e) :
    (∀ trees, e.prospects = .ok trees →
      ((∃ next, e.expand.outcome = .ok (next, .error .workLimitExceeded)) ↔
        ∃ i < trees.length, limit < bill e.cost trees (i + 1)) ∧
      (∀ i < trees.length, limit < bill e.cost trees (i + 1) →
        (∀ j < i, bill e.cost trees (j + 1) ≤ limit) →
        ∃ next, e.expand.outcome = .ok (next, .error .workLimitExceeded) ∧
          next = { e with cost := bill e.cost trees (i + 1) } ∧
          ∀ later, ReflTransGen Follows next later →
            later = { e with cost := later.cost } ∧
            ∃ last, later.expand.outcome = .ok (last, .error .workLimitExceeded) ∧
              last = { e with cost := last.cost }) ∧
      ((∀ i < trees.length, bill e.cost trees (i + 1) ≤ limit) →
        ∃ next, e.expand.outcome = .ok (next, .ok ()) ∧ next.depth = e.depth + 1 ∧
          next.cost = bill e.cost trees trees.length ∧ (trees = [] → next.cost = e.cost))) ∧
    (∃ results, History g limit results e) ∧
      ∀ results, History g limit results e →
        (e.cost ≤ limit ↔ ∀ result ∈ results, result = .ok ()) := by
  have hlargest := h.cost_le_largest
  refine ⟨fun trees htrees => ?_, h.exists_history, fun results hresults => hresults.cost_le_iff⟩
  have hpayment := payment_eq htrees
  rw [h.limit_eq] at hpayment
  have hfinished (hwithin : ∀ i < trees.length, bill e.cost trees (i + 1) ≤ limit) :
      ∃ languages, e.expand.outcome = .ok
        ({ e with languages, cost := bill e.cost trees trees.length, depth := e.depth + 1 },
          .ok ()) :=
    expand_of_payment (hpayment.trans (foldlM_charge hlargest hwithin))
  have hgivenUp (i : ℕ) (hi : i < trees.length) (habove : limit < bill e.cost trees (i + 1))
      (hbelow : ∀ j < i, bill e.cost trees (j + 1) ≤ limit) :
      e.payment = .error (.limitExceeded (bill e.cost trees (i + 1))) :=
    hpayment.trans (foldlM_charge_eq_error hi habove hbelow)
  refine ⟨⟨?_, ?_⟩, ?_, ?_⟩
  · rintro ⟨next, hfailed⟩
    by_contra hwithin
    push Not at hwithin
    obtain ⟨languages, hexpand⟩ := hfinished hwithin
    rw [hexpand] at hfailed
    cases hfailed
  · intro hexceeds
    obtain ⟨hi, habove⟩ := Nat.find_spec hexceeds
    have hbelow : ∀ j < Nat.find hexceeds, bill e.cost trees (j + 1) ≤ limit :=
      fun j hj => Nat.le_of_not_lt fun hlt => Nat.find_min hexceeds hj ⟨hj.trans hi, hlt⟩
    exact ⟨_, expand_of_payment_eq_error (hgivenUp _ hi habove hbelow)⟩
  · intro i hi habove hbelow
    have hfailed := hgivenUp i hi habove hbelow
    refine ⟨_, expand_of_payment_eq_error hfailed, rfl, fun later hlater => ?_⟩
    obtain ⟨cost, rfl, hspent⟩ := (spent_of_payment hfailed).of_follows hlater
    obtain ⟨more, _, hexpand⟩ := hspent.expand
    exact ⟨rfl, _, hexpand, rfl⟩
  · intro hwithin
    obtain ⟨languages, hexpand⟩ := hfinished hwithin
    refine ⟨_, hexpand, rfl, rfl, ?_⟩
    rintro rfl
    exact bill_nil hlargest _

/-- Within a cost of 24 two steps are finished and the third one is given up at its second tree.
Its first tree takes the next step above the limit at once. -/
theorem account_of_twoWords :
    (∃ e trees next, Reachable twoWords 24 e ∧ e.depth = 1 ∧ e.cost = 2 ∧
      e.prospects = .ok trees ∧ trees.length = 4 ∧ e.expand.outcome = .ok (next, .ok ()) ∧
      next.depth = 2 ∧ next.cost = 16) ∧
    ∃ e trees next, Reachable twoWords 24 e ∧ e.depth = 2 ∧ e.cost = 16 ∧
      e.prospects = .ok trees ∧ bill 16 trees 1 = 22 ∧ bill 16 trees 2 = 25 ∧
      e.expand.outcome = .ok (next, .error .workLimitExceeded) ∧ next = { e with cost := 25 } ∧
      (∀ later, ReflTransGen Follows next later →
        later = { e with cost := later.cost } ∧
        ∃ last, later.expand.outcome = .ok (last, .error .workLimitExceeded) ∧
          last = { e with cost := last.cost }) ∧
      ∃ results, History twoWords 24 results next ∧ ¬∀ result ∈ results, result = .ok () := by
  have hone : ((start twoWords 24).run 1).outcome.map (fun ended =>
      (ended.2.depth, ended.2.cost, ended.2.prospects.map fun trees =>
        (trees.length, bill 2 trees 4, decide (∀ i < trees.length, bill 2 trees (i + 1) ≤ 24)))) =
      .ok (1, 2, .ok (4, 16, true)) := by cbv
  have htwo : ((start twoWords 24).run 2).outcome.map (fun ended =>
      (ended.2.depth, ended.2.cost, ended.2.prospects.map fun trees =>
        (trees.length, bill 16 trees 1, bill 16 trees 2))) =
      .ok (2, 16, .ok (4, 22, 25)) := by cbv
  constructor
  · obtain ⟨⟨enumeration, e⟩, hrun, hview⟩ := map_eq_ok_iff.1 hone
    obtain ⟨hdepth, hview⟩ := Prod.mk.inj hview
    obtain ⟨hcost, hview⟩ := Prod.mk.inj hview
    obtain ⟨trees, htrees, hview⟩ := map_eq_ok_iff.1 hview
    obtain ⟨hlength, hview⟩ := Prod.mk.inj hview
    obtain ⟨hbill, hwithin⟩ := Prod.mk.inj hview
    have he : Reachable twoWords 24 e := .run .start hrun
    obtain ⟨_, _, hfinished⟩ := (account_of_reachable he).1 trees htrees
    dsimp only at hdepth hcost hlength hbill hwithin
    rw [hdepth, hcost, hlength, hbill] at hfinished
    obtain ⟨next, hexpand, hnextDepth, hnextCost, _⟩ :=
      hfinished (hlength ▸ of_decide_eq_true hwithin)
    exact ⟨e, trees, next, he, hdepth, hcost, htrees, hlength, hexpand, hnextDepth, hnextCost⟩
  · obtain ⟨⟨enumeration, e⟩, hrun, hview⟩ := map_eq_ok_iff.1 htwo
    obtain ⟨hdepth, hview⟩ := Prod.mk.inj hview
    obtain ⟨hcost, hview⟩ := Prod.mk.inj hview
    obtain ⟨trees, htrees, hview⟩ := map_eq_ok_iff.1 hview
    obtain ⟨hlength, hview⟩ := Prod.mk.inj hview
    obtain ⟨hfirst, hsecond⟩ := Prod.mk.inj hview
    have he : Reachable twoWords 24 e := .run .start hrun
    obtain ⟨_, hgivenUp, _⟩ := (account_of_reachable he).1 trees htrees
    dsimp only at hdepth hcost hlength hfirst hsecond
    rw [hcost, hlength] at hgivenUp
    have hbelow : ∀ j < 1, bill 16 trees (j + 1) ≤ 24 := by
      intro j hj
      rw [Nat.lt_one_iff.1 hj, Nat.zero_add, hfirst]
      decide
    have habove : 24 < bill 16 trees (1 + 1) := hsecond ▸ (by decide)
    obtain ⟨next, hexpand, hnext, hlater⟩ := hgivenUp 1 (by decide) habove hbelow
    rw [hsecond] at hnext
    obtain ⟨_, ⟨results, hresults⟩, hwithin⟩ := account_of_reachable (he.expand hexpand)
    have hfailed : ¬∀ result ∈ results, result = .ok () := by
      rw [← hwithin results hresults, hnext]
      exact Nat.not_le.2 (by decide : 24 < 25)
    exact ⟨e, trees, next, he, hdepth, hcost, htrees, hfirst, hsecond, hexpand, hnext, hlater,
      results, hresults, hfailed⟩

end Expansion

end ContextFree
