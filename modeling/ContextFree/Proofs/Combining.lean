import ContextFree.Proofs.Layering
import Mathlib

/-!
# Rows for a right-hand side

A row for a right-hand side has one tree for every symbol: one of those found so far for a
nonterminal, the leaf for a terminal. Rows grow from the right, but the symbol that is treated
last, the leftmost one, is the one whose trees are gone through in the outer loop. So all rows
come in lexicographic order, the leftmost place counting most.

The trees found for a nonterminal are distinct. This makes the order of rows a strict one: no
row comes twice, and there is just one way to list all rows in order.
-/
namespace ContextFree

/-- Where nothing comes twice, of two elements only one stands before the other. -/
lemma not_sublist_swap {α : Type} {row : List α} {a b : α} (hrow : row.Nodup)
    (hab : [a, b].Sublist row) : ¬ [b, a].Sublist row := by
  intro hba
  induction row with
  | nil => cases hab
  | cons c row ih =>
    obtain ⟨hc, hrow⟩ := List.nodup_cons.1 hrow
    rcases List.cons_sublist_cons'.1 hab with hrest | ⟨rfl, hb⟩
    · rcases List.cons_sublist_cons'.1 hba with hrest' | ⟨rfl, _⟩
      · exact ih hrow hrest hrest'
      · have hb : b ∈ row := hrest.subset (List.mem_cons_of_mem a List.mem_cons_self)
        exact hc hb
    · rcases List.cons_sublist_cons'.1 hba with hrest' | ⟨rfl, _⟩
      · have ha : a ∈ row := hrest'.subset (List.mem_cons_of_mem b List.mem_cons_self)
        exact hc ha
      · exact hc (List.singleton_sublist.1 hb)

namespace Expansion

/-- The lexicographic order of rows for a right-hand side: at the first place where two rows
differ, the tree of the earlier row stands before that of the later one among those that may
stand for the symbol. -/
inductive Precedes (options : Symbol → List Tree) : List Symbol → List Tree → List Tree → Prop
  | here {symbol : Symbol} {rhs : List Symbol} {a b : Tree} (as bs : List Tree)
      (earlier : [a, b].Sublist (options symbol)) :
      Precedes options (symbol :: rhs) (a :: as) (b :: bs)
  | later {rhs : List Symbol} {as bs : List Tree} (symbol : Symbol) (tree : Tree)
      (rest : Precedes options rhs as bs) :
      Precedes options (symbol :: rhs) (tree :: as) (tree :: bs)

/-- All rows for a right-hand side, and nothing else, in lexicographic order. -/
structure Combines (options : Symbol → List Tree) (rhs : List Symbol)
    (rows : List (List Tree)) : Prop where
  mem_iff : ∀ row, row ∈ rows ↔
    List.Forall₂ (fun symbol tree => tree ∈ options symbol) rhs row
  ordered : rows.Pairwise (Precedes options rhs)

/-- What may stand for a symbol: its trees if it is a nonterminal of the grammar, and otherwise
its leaf. -/
def candidates (g : Grammar) (e : Expansion) (symbol : Symbol) : List Tree :=
  if symbol ∈ g.nonterminals then e.derivations symbol else [g.leaf symbol]

variable {g : Grammar} {limit : ℕ} {e : Expansion} {options : Symbol → List Tree}
  {rhs : List Symbol} {rows other : List (List Tree)}

namespace Precedes

variable {a b : List Tree}

/-- Rows in order are different rows. -/
lemma beq_eq_false (h : Precedes options rhs a b)
    (hdistinct : ∀ symbol, (options symbol).Pairwise fun a b => (a == b) = false) :
    (a == b) = false := by
  induction h with
  | @here symbol _ a b as bs earlier =>
    have hne : (a == b) = false := List.pairwise_iff_forall_sublist.1 (hdistinct symbol) earlier
    rw [List.cons_beq_cons, hne, Bool.false_and]
  | later _ _ _ ih => rw [List.cons_beq_cons, ih, Bool.and_false]

/-- Of two rows at most one precedes the other. -/
lemma asymm (h : Precedes options rhs a b) (hnodup : ∀ symbol, (options symbol).Nodup) :
    ¬ Precedes options rhs b a := by
  induction h with
  | @here symbol _ a b _ _ earlier =>
    intro hback
    cases hback with
    | here _ _ back => exact not_sublist_swap (hnodup symbol) earlier back
    -- the first trees are the same, and none stands before itself
    | later _ _ _ => exact List.nodup_iff_sublist.1 (hnodup symbol) _ earlier
  | later symbol tree _ ih =>
    intro hback
    cases hback with
    | here _ _ back => exact List.nodup_iff_sublist.1 (hnodup symbol) tree back
    | later _ _ rest => exact ih rest

end Precedes

/-- Rows in order stay in order below one tree, and rows below different trees are in the order of
these. -/
lemma pairwise_prepend (h : rows.Pairwise (Precedes e.choices rhs)) (symbol : Symbol) :
    (e.prepend rows symbol).Pairwise (Precedes e.choices (symbol :: rhs)) := by
  rw [prepend, List.pairwise_flatMap]
  constructor
  · intro tree _
    rw [List.pairwise_map]
    exact h.imp fun hrest => .later symbol tree hrest
  · rw [List.pairwise_iff_forall_sublist]
    intro a b hab row hrow next hnext
    obtain ⟨as, _, rfl⟩ := List.mem_map.1 hrow
    obtain ⟨bs, _, rfl⟩ := List.mem_map.1 hnext
    exact .here as bs hab

lemma combines_products (e : Expansion) (rhs : List Symbol) :
    Combines e.choices rhs (e.products rhs) where
  mem_iff _ := mem_products
  ordered := by
    induction rhs with
    | nil => exact List.pairwise_singleton ..
    | cons symbol rhs ih =>
      rw [products_cons]
      exact pairwise_prepend ih symbol

namespace Combines

variable (hdistinct : ∀ symbol, (options symbol).Pairwise fun a b => (a == b) = false)

include hdistinct

/-- No two rows are equal. -/
lemma distinct (h : Combines options rhs rows) :
    rows.Pairwise fun row next => (row == next) = false :=
  h.ordered.imp fun hrow => hrow.beq_eq_false hdistinct

lemma nodup (h : Combines options rhs rows) : rows.Nodup :=
  (h.distinct hdistinct).imp ne_of_beq_false

/-- There is one way to list all rows in order. -/
lemma eq (h : Combines options rhs rows) (h' : Combines options rhs other) : rows = other := by
  have hnodup : ∀ symbol, (options symbol).Nodup :=
    fun symbol => (hdistinct symbol).imp ne_of_beq_false
  have hperm : rows.Perm other := by
    rw [List.perm_ext_iff_of_nodup (h.nodup hdistinct) (h'.nodup hdistinct)]
    exact fun row => (h.mem_iff row).trans (h'.mem_iff row).symm
  refine List.Perm.eq_of_pairwise ?_ h.ordered h'.ordered hperm
  intro row next _ _ hrow hnext
  exact absurd hnext (hrow.asymm hnodup)

end Combines

lemma length_prepend (e : Expansion) (rows : List (List Tree)) (symbol : Symbol) :
    (e.prepend rows symbol).length = (e.choices symbol).length * rows.length := by
  simp [prepend, List.length_flatMap]

lemma length_products (e : Expansion) (rhs : List Symbol) :
    (e.products rhs).length = (rhs.map fun symbol => (e.choices symbol).length).prod := by
  induction rhs with
  | nil => rfl
  | cons symbol rhs ih =>
    rw [products_cons, length_prepend, ih, List.map_cons, List.prod_cons]

namespace Exact

lemma choices_eq_candidates (h : Exact g e) : e.choices = candidates g e := by
  funext symbol
  by_cases hsymbol : symbol ∈ g.nonterminals
  · rw [candidates, if_pos hsymbol, h.choices_of_nonterminal hsymbol]
  · rw [candidates, if_neg hsymbol, h.choices_of_terminal hsymbol]

lemma distinct_choices (h : Exact g e) (symbol : Symbol) :
    (e.choices symbol).Pairwise fun a b => (a == b) = false := by
  by_cases hsymbol : symbol ∈ g.nonterminals
  · rw [h.choices_of_nonterminal hsymbol, Tree.pairwise_iff_nodup]
    exact h.nodup_derivations hsymbol
  · rw [h.choices_of_terminal hsymbol]
    exact List.pairwise_singleton ..

end Exact

/-- The rows for a right-hand side are all choices of one tree for every symbol, in lexicographic
order from the left and none of them twice, so there are as many as the numbers of choices
multiply to. -/
theorem products_of_reachable (h : Reachable g limit e) (rhs : List Symbol) :
    (∀ rows, Combines (candidates g e) rhs rows ↔ rows = e.products rhs) ∧
      ((e.products rhs).Pairwise fun row next => (row == next) = false) ∧
      (e.products rhs).length =
        (rhs.map fun symbol => (candidates g e symbol).length).prod ∧
      (rhs = [] → (e.products rhs).length = 1) ∧
      ∀ symbol ∈ rhs, symbol ∈ g.nonterminals → e.derivations symbol = [] →
        (e.products rhs).length = 0 := by
  have hexact := h.exact
  have hproducts := combines_products e rhs
  have hdistinct := hexact.distinct_choices
  have hlength := length_products e rhs
  rw [hexact.choices_eq_candidates] at hproducts hdistinct hlength
  refine ⟨fun rows => ?_, hproducts.distinct hdistinct, hlength, ?_, ?_⟩
  · constructor
    · exact fun hrows => hrows.eq hdistinct hproducts
    · rintro rfl
      exact hproducts
  · rintro rfl
    rfl
  · intro symbol hmem hsymbol hnone
    have hzero : (candidates g e symbol).length = 0 := by
      rw [candidates, if_pos hsymbol, hnone, List.length_nil]
    rw [hlength]
    exact List.prod_eq_zero (List.mem_map.2 ⟨symbol, hmem, hzero⟩)

/-- Two letters on either side of a comma, one of them written down twice, and a nonterminal that
never ends: `S → A , B`, `A → x | y | x`, `B → u | v` and `E → E`. -/
def letterPairs : Grammar :=
  (((({} : Grammar).addAlternatives "S" "A,B").addAlternatives "A" "x|y|x").addAlternatives "B"
    "u|v").addAlternatives "E" "E"

/-- After one step there are four rows for `A , B`, and none for `A E`. -/
theorem products_of_letterPairs :
    ∃ e, Reachable letterPairs 100 e ∧
      (e.products [⟨1⟩, ⟨2⟩, ⟨3⟩]).map (List.map Tree.sentence) =
        [["x", ",", "u"], ["x", ",", "v"], ["y", ",", "u"], ["y", ",", "v"]] ∧
      (∀ rows, Combines (candidates letterPairs e) [⟨1⟩, ⟨2⟩, ⟨3⟩] rows ↔
        rows = e.products [⟨1⟩, ⟨2⟩, ⟨3⟩]) ∧
      ((e.products [⟨1⟩, ⟨2⟩, ⟨3⟩]).Pairwise fun row next => (row == next) = false) ∧
      (e.products [⟨1⟩, ⟨2⟩, ⟨3⟩]).length =
        ([⟨1⟩, ⟨2⟩, ⟨3⟩].map fun symbol => (candidates letterPairs e symbol).length).prod ∧
      (e.products []).length = 1 ∧
      ⟨8⟩ ∈ letterPairs.nonterminals ∧ e.derivations ⟨8⟩ = [] ∧
      (e.products [⟨1⟩, ⟨8⟩]).length = 0 := by
  have hstep : (start letterPairs 100).expand.outcome.map (fun step =>
      ((step.1.products [⟨1⟩, ⟨2⟩, ⟨3⟩]).map (List.map Tree.sentence),
        (step.1.derivations ⟨8⟩).length)) =
      .ok ([["x", ",", "u"], ["x", ",", "v"], ["y", ",", "u"], ["y", ",", "v"]], 0) := by cbv
  obtain ⟨⟨e, result⟩, hexpand, hview⟩ := map_eq_ok_iff.1 hstep
  obtain ⟨hrows, hnone⟩ := Prod.mk.inj hview
  have hreachable : Reachable letterPairs 100 e := .expand .start hexpand
  have hnonterminal : (⟨8⟩ : Symbol) ∈ letterPairs.nonterminals := by decide
  have hempty : e.derivations ⟨8⟩ = [] := List.eq_nil_of_length_eq_zero hnone
  obtain ⟨hlists, hdistinct, hlength, _⟩ := products_of_reachable hreachable [⟨1⟩, ⟨2⟩, ⟨3⟩]
  obtain ⟨_, _, _, hone, _⟩ := products_of_reachable hreachable []
  obtain ⟨_, _, _, _, hzero⟩ := products_of_reachable hreachable [⟨1⟩, ⟨8⟩]
  exact ⟨e, hreachable, hrows, hlists, hdistinct, hlength, hone rfl, hnonterminal, hempty,
    hzero ⟨8⟩ (by simp) hnonterminal hempty⟩

end Expansion

end ContextFree
