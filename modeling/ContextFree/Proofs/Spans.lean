import ContextFree.Proofs.Charts
import ContextFree.Proofs.Measures

/-!
# Spans of items

An item at a position of a chart has matched the tokens from there to its `finish`. The
invariant `Item.Fits` says so, together with where the production and the matched trees come
from. It holds of the seeds of a position and is kept by prediction and by completion, against
the position itself and against a later one alike, so it holds of every item of a chart, cut or
not.
-/
namespace ContextFree

/-- The tokens between two positions. -/
def between (tokens : List (Option Symbol)) (p q : ℕ) : List (Option Symbol) :=
  (tokens.drop p).take (q - p)

section Between

variable {tokens : List (Option Symbol)} {p q r : ℕ}

@[simp] theorem between_self (tokens : List (Option Symbol)) (p : ℕ) :
    between tokens p p = [] := by simp [between]

@[simp] theorem between_all (tokens : List (Option Symbol)) :
    between tokens 0 tokens.length = tokens := by simp [between]

theorem between_append (hpq : p ≤ q) (hqr : q ≤ r) :
    between tokens p q ++ between tokens q r = between tokens p r := by
  have hsum : r - p = (q - p) + (r - q) := by omega
  have hdrop : p + (q - p) = q := by omega
  rw [between, between, between, hsum, List.take_add, List.drop_drop, hdrop]

lemma between_succ {token : Option Symbol} (h : tokens[p]? = some token) :
    between tokens p (p + 1) = [token] := by
  obtain ⟨hlt, rfl⟩ := List.getElem?_eq_some_iff.1 h
  rw [between, List.drop_eq_getElem_cons hlt, Nat.add_sub_cancel_left, List.take_succ_cons,
    List.take_zero]

end Between

/-- What is true of an item at a position of a chart for the given tokens. -/
structure Item.Fits (g : Grammar) (start : Symbol) (tokens : List (Option Symbol)) (position : ℕ)
    (item : Item) : Prop where
  position_le : position ≤ item.finish
  finish_le : item.finish ≤ tokens.length
  production : ⟨item.lhs, item.rhs⟩ ∈ g.productions ∨
    item.lhs = g.root ∧ item.rhs = [start] ∧ item.finish = tokens.length
  valid : ∀ tree ∈ item.parsed, g.Valid tree.shape
  grown : ∀ tree ∈ item.parsed, g.Grows tree
  yield : (item.parsed.flatMap fun tree => tree.shape.yield).map some =
    between tokens position item.finish

namespace Item

variable {g : Grammar} {start : Symbol} {tokens : List (Option Symbol)} {p q : ℕ}
  {item moved : Item} {tree : Tree}

lemma fits_rootItem (g : Grammar) (start : Symbol) (tokens : List (Option Symbol)) :
    (g.rootItem start tokens.length).Fits g start tokens tokens.length where
  position_le := le_rfl
  finish_le := le_rfl
  production := .inr ⟨rfl, rfl, rfl⟩
  valid := by simp [Grammar.rootItem, predict]
  grown := by simp [Grammar.rootItem, predict]
  yield := by simp [Grammar.rootItem, predict]

lemma fits_predict {next : Symbol} {rhs : List Symbol} (hp : p ≤ tokens.length)
    (hrhs : rhs ∈ g.alternatives next) : (predict next rhs p).Fits g start tokens p where
  position_le := le_rfl
  finish_le := hp
  production := .inl (by rw [rhs_predict]; exact Grammar.mem_alternatives.1 hrhs)
  valid := by simp [predict]
  grown := by simp [predict]
  yield := by simp [predict]

/-- Moving an item over a tree for the tokens in front of it extends its span to the left. -/
lemma Fits.advance (h : item.Fits g start tokens q) (hpq : p ≤ q) (hvalid : g.Valid tree.shape)
    (hgrown : g.Grows tree) (hyield : tree.shape.yield.map some = between tokens p q)
    (hmoved : item.advance? tree = some moved) : moved.Fits g start tokens p := by
  have hrhs := rhs_of_advance? hmoved
  obtain ⟨pending, _, rfl⟩ := advance?_eq_some_iff.1 hmoved
  constructor
  · exact hpq.trans h.position_le
  · exact h.finish_le
  · rw [hrhs]
    exact h.production
  · exact List.forall_mem_cons.2 ⟨hvalid, h.valid⟩
  · exact List.forall_mem_cons.2 ⟨hgrown, h.grown⟩
  · rw [List.flatMap_cons, List.map_append, hyield, h.yield, between_append hpq h.position_le]

lemma Fits.scan (h : item.Fits g start tokens (p + 1)) {symbol : Symbol}
    (htoken : tokens[p]? = some (some symbol)) (hterminal : symbol ∉ g.nonterminals)
    (hmoved : item.advance? (g.leaf symbol) = some moved) : moved.Fits g start tokens p := by
  have hvalid : g.Valid (g.leaf symbol).shape := .leaf symbol hterminal
  refine h.advance (Nat.le_succ p) hvalid (.leaf symbol) ?_ hmoved
  rw [between_succ htoken]
  rfl

lemma rhs_of_finished (h : item.pending = []) : item.rhs = item.parsed.map Tree.symbol := by
  simp [Item.rhs, h]

/-- An item of the synthetic root derives the start symbol from the end of the input. -/
lemma Fits.of_root (h : item.Fits g start tokens p) (hroot : g.root ∉ g.nonterminals)
    (hlhs : item.lhs = g.root) : item.rhs = [start] ∧ item.finish = tokens.length := by
  rcases h.production with hproduction | hstart
  · exact absurd (hlhs ▸ Grammar.lhs_mem_nonterminals hproduction) hroot
  · exact hstart.2

/-- A finished item of a nonterminal has matched a derivation tree for the tokens of its span. -/
lemma Fits.isDerivation (h : item.Fits g start tokens p) (hfinished : item.pending = [])
    (hlhs : item.lhs ≠ g.root) :
    g.IsDerivation item.lhs (.node item.lhs (item.parsed.map Tree.shape)) ∧
      (Shape.node item.lhs (item.parsed.map Tree.shape)).yield.map some =
        between tokens p item.finish := by
  have hproduction : ⟨item.lhs, item.parsed.map Tree.symbol⟩ ∈ g.productions := by
    rw [← rhs_of_finished hfinished]
    exact h.production.resolve_right fun hroot => hlhs hroot.1
  refine ⟨⟨.node item.lhs (item.parsed.map Tree.shape) ?_ ?_, _, rfl⟩, ?_⟩
  · simpa only [List.map_map, Function.comp_def, Tree.root_shape] using hproduction
  · simpa only [List.forall_mem_map] using h.valid
  · rw [Shape.yield_node, List.flatMap_map]
    exact h.yield

/-- Completing an item moves one that stands where the completed item began. -/
lemma Fits.complete {child parent : Item} (hchild : child.Fits g start tokens p)
    (hcompletes : Position.Completes g child tree)
    (hparent : parent.Fits g start tokens child.finish)
    (hmoved : parent.advance? tree = some moved) : moved.Fits g start tokens p := by
  have hshape := Tree.shape_of_node hcompletes.tree
  obtain ⟨hderivation, hyield⟩ := hchild.isDerivation hcompletes.pending hcompletes.lhs
  rw [← hshape] at hderivation hyield
  exact hparent.advance hchild.position_le hderivation.1 (.node hchild.grown hcompletes.tree)
    hyield hmoved

end Item

namespace Position

/-- What is kept by every rule that adds an item to a position: seeding, prediction and
completion. -/
structure Kept (g : Grammar) (start : Symbol) (tokens : List (Option Symbol))
    (motive : ℕ → Item → Prop) : Prop where
  position_le : ∀ {position : ℕ} {item : Item}, motive position item → position ≤ item.finish
  root : motive tokens.length (g.rootItem start tokens.length)
  scan : ∀ {position : ℕ} {symbol : Symbol} {item moved : Item},
    tokens[position]? = some (some symbol) → symbol ∉ g.nonterminals →
    motive (position + 1) item → item.advance? (g.leaf symbol) = some moved →
    motive position moved
  predict : ∀ {position : ℕ} {next : Symbol} {pending rhs : List Symbol} {item : Item},
    position ≤ tokens.length → motive position item → item.pending = next :: pending →
    rhs ∈ g.alternatives next → motive position (.predict next rhs position)
  complete : ∀ {position : ℕ} {child parent moved : Item} {tree : Tree},
    motive position child → Completes g child tree → motive child.finish parent →
    parent.advance? tree = some moved → motive position moved

namespace Kept

variable {g : Grammar} {limit base position : ℕ} {start : Symbol}
  {tokens : List (Option Symbol)} {later chart : List Position} {motive : ℕ → Item → Prop}

lemma of_follows (h : Kept g start tokens motive) (hle : position ≤ tokens.length)
    (hlater : ∀ finish, position < finish → ∀ item ∈ itemsAt later position finish,
      motive finish item) {item : Item}
    (hfollows : Follows g later position
      (g.seeds start position (tokens.drop position) later) item) : motive position item := by
  induction hfollows with
  | seed mem =>
    rcases (mem_seeds hle).1 mem with ⟨rfl, rfl⟩ | ⟨symbol, htoken, hterminal, parent, hparent, hmoved⟩
    · exact h.root
    · exact h.scan htoken hterminal (hlater _ (Nat.lt_succ_self _) parent hparent) hmoved
  | predict _ hpending hrhs ih => exact h.predict hle ih hpending hrhs
  | completeHere _ hcompletes hfinish _ hmoved hchild hparent =>
    exact h.complete hchild hcompletes (hfinish ▸ hparent) hmoved
  | completeLater _ hcompletes hfinish mem hmoved hchild =>
    have hlt := Nat.lt_of_le_of_ne (h.position_le hchild) (Ne.symm hfinish)
    exact h.complete hchild hcompletes (hlater _ hlt _ mem) hmoved

/-- What the rules keep holds of every item of a chart, whether or not positions were cut. -/
theorem of_charts (h : Kept g start tokens motive)
    (hcharts : Charts g limit start tokens base chart) (hbase : base ≤ position) :
    ∀ item ∈ itemsIn chart (position - base), motive position item := by
  induction hcharts generalizing position with
  | nil => simp [itemsIn]
  | @cons first here later hle rest built ih =>
    intro item hitem
    rcases Nat.eq_or_lt_of_le hbase with rfl | hlt
    · rw [Nat.sub_self] at hitem
      exact h.of_follows hle (fun finish hfinish => ih hfinish)
        (follows_of_build built item hitem)
    · have hindex : position - first = position - (first + 1) + 1 := by omega
      rw [hindex] at hitem
      exact ih hlt item hitem

end Kept

variable {g : Grammar} {limit : ℕ} {start : Symbol} {tokens : List (Option Symbol)}
  {chart : List Position}

lemma kept_fits (g : Grammar) (start : Symbol) (tokens : List (Option Symbol)) :
    Kept g start tokens fun position item => item.Fits g start tokens position where
  position_le h := h.position_le
  root := Item.fits_rootItem g start tokens
  scan htoken hterminal hitem hmoved := hitem.scan htoken hterminal hmoved
  predict hle _ _ hrhs := Item.fits_predict hle hrhs
  complete hchild hcompletes hparent hmoved := hchild.complete hcompletes hparent hmoved

/-- What follows from the seeds of a position fits it, whatever was cut to its right. -/
theorem fits_of_follows {position : ℕ} {later : List Position} {item : Item}
    (hle : position ≤ tokens.length) (hrest : Charts g limit start tokens (position + 1) later)
    (h : Follows g later position (g.seeds start position (tokens.drop position) later) item) :
    item.Fits g start tokens position :=
  (kept_fits g start tokens).of_follows hle
    (fun _ hfinish => (kept_fits g start tokens).of_charts hrest hfinish) h

/-- Every item of a chart fits its position, whether or not positions were cut. -/
theorem Charts.fits (h : Charts g limit start tokens 0 chart) (position : ℕ) :
    ∀ item ∈ itemsIn chart position, item.Fits g start tokens position :=
  (kept_fits g start tokens).of_charts h (Nat.zero_le position)

end Position

end ContextFree
