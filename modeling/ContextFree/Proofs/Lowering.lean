import ContextFree.Proofs.Agreeing
import ContextFree.Proofs.Finishing

/-!
# Low derivation trees

A nonterminal with a derivation tree has one that is at most one level higher than there are
nonterminals, and the same is true of derivation trees whose leaves are restricted. The
nonterminals with a tree of bounded height grow with the bound, and once a level adds none no
later level does.

So the depth of an enumeration that equals the number of nonterminals is enough to see which of
them have trees at all, and which have trees of the empty word. This is what an analysis finds
without building trees, and a complete parse of the empty sentence comes to the same answer.
-/
namespace ContextFree

namespace Grammar

variable {g : Grammar} {property : Symbol → Prop} {bound : ℕ} {symbol : Symbol}

/-- Whether a symbol has a valid shape of bounded height, all of whose leaves have a property. -/
def Low (g : Grammar) (property : Symbol → Prop) (bound : ℕ) (symbol : Symbol) : Prop :=
  ∃ shape, shape.root = symbol ∧ g.Valid shape ∧ (∀ leaf ∈ shape.yield, property leaf) ∧
    shape.height ≤ bound

lemma Low.mono {more : ℕ} (h : g.Low property bound symbol) (hle : bound ≤ more) :
    g.Low property more symbol := by
  obtain ⟨shape, hroot, hvalid, hleaves, hheight⟩ := h
  exact ⟨shape, hroot, hvalid, hleaves, hheight.trans hle⟩

open Classical in
/-- The nonterminals with such a shape. -/
noncomputable def lowSymbols (g : Grammar) (property : Symbol → Prop) (bound : ℕ) :
    Finset Symbol :=
  g.nonterminals.toFinset.filter (g.Low property bound)

lemma mem_lowSymbols : symbol ∈ g.lowSymbols property bound ↔
    symbol ∈ g.nonterminals ∧ g.Low property bound symbol := by
  classical
  rw [lowSymbols, Finset.mem_filter, List.mem_toFinset]

lemma lowSymbols_subset {more : ℕ} (hle : bound ≤ more) :
    g.lowSymbols property bound ⊆ g.lowSymbols property more := by
  intro symbol hsymbol
  rw [mem_lowSymbols] at hsymbol ⊢
  exact ⟨hsymbol.1, hsymbol.2.mono hle⟩

lemma card_lowSymbols_le (g : Grammar) (property : Symbol → Prop) (bound : ℕ) :
    (g.lowSymbols property bound).card ≤ g.nonterminals.length := by
  classical
  exact (Finset.card_filter_le _ _).trans (List.toFinset_card_le _)

lemma Low.of_terminal (h : g.Low property bound symbol) (hterminal : symbol ∉ g.nonterminals) :
    g.Low property 1 symbol := by
  obtain ⟨shape, rfl, hvalid, hleaves, _⟩ := h
  cases hvalid with
  | leaf symbol => exact ⟨.leaf symbol, rfl, .leaf symbol hterminal, hleaves, le_rfl⟩
  | node symbol children production =>
    exact absurd (lhs_mem_nonterminals production) hterminal

/-- A nonterminal has a shape one level above those of a right-hand side. -/
lemma low_succ_iff (hbound : 1 ≤ bound) (hsymbol : symbol ∈ g.nonterminals) :
    g.Low property (bound + 1) symbol ↔
      ∃ rhs, ⟨symbol, rhs⟩ ∈ g.productions ∧ ∀ other ∈ rhs, g.Low property bound other := by
  constructor
  · intro ⟨shape, hroot, hvalid, hleaves, hheight⟩
    cases hvalid with
    | leaf symbol hterminal =>
      rw [← hroot] at hsymbol
      exact absurd hsymbol hterminal
    | node root children production valid =>
      obtain rfl : root = symbol := hroot
      have hheights := (Shape.height_node_le_iff.1 hheight).2
      refine ⟨_, production, ?_⟩
      intro other hother
      obtain ⟨child, hchild, rfl⟩ := List.mem_map.1 hother
      refine ⟨child, rfl, valid child hchild, fun leaf hleaf => hleaves leaf ?_,
        hheights child hchild⟩
      rw [Shape.yield_node, List.mem_flatMap]
      exact ⟨child, hchild, hleaf⟩
  · intro ⟨rhs, hproduction, hrhs⟩
    obtain ⟨children, hroots, hchildren⟩ := exists_row hrhs
    refine ⟨.node symbol children, rfl, .node symbol children ?_ ?_, ?_, ?_⟩
    · rw [hroots]
      exact hproduction
    · exact fun child hchild => (hchildren child hchild).1
    · intro leaf hleaf
      rw [Shape.yield_node, List.mem_flatMap] at hleaf
      obtain ⟨child, hchild, hleaf⟩ := hleaf
      exact (hchildren child hchild).2.1 leaf hleaf
    · rw [Shape.height_node_le_iff]
      exact ⟨hbound, fun child hchild => (hchildren child hchild).2.2⟩

/-- A level that adds no nonterminal has nothing new for the next level to stand on. -/
lemma lowSymbols_stable (hbound : 1 ≤ bound)
    (hsame : g.lowSymbols property bound = g.lowSymbols property (bound + 1)) :
    g.lowSymbols property (bound + 1) = g.lowSymbols property (bound + 2) := by
  apply (lowSymbols_subset (Nat.le_succ _)).antisymm
  intro symbol hsymbol
  rw [mem_lowSymbols] at hsymbol ⊢
  obtain ⟨rhs, hproduction, hrhs⟩ := (low_succ_iff (by omega) hsymbol.1).1 hsymbol.2
  refine ⟨hsymbol.1, (low_succ_iff hbound hsymbol.1).2 ⟨rhs, hproduction, ?_⟩⟩
  intro other hother
  by_cases hnonterminal : other ∈ g.nonterminals
  · have hnext : other ∈ g.lowSymbols property (bound + 1) :=
      mem_lowSymbols.2 ⟨hnonterminal, hrhs other hother⟩
    rw [← hsame, mem_lowSymbols] at hnext
    exact hnext.2
  · exact ((hrhs other hother).of_terminal hnonterminal).mono hbound

lemma lowSymbols_eq_iff {more : ℕ} (hle : bound ≤ more) :
    g.lowSymbols property bound = g.lowSymbols property more ↔
      (g.lowSymbols property bound).card = (g.lowSymbols property more).card :=
  ⟨congrArg Finset.card, fun hcard =>
    Finset.eq_of_subset_of_card_le (lowSymbols_subset hle) hcard.ge⟩

/-- There are as many levels that add a nonterminal as there are nonterminals, at most. -/
theorem Low.of_nonterminal (hsymbol : symbol ∈ g.nonterminals) (h : g.Low property bound symbol) :
    g.Low property (g.nonterminals.length + 1) symbol := by
  have hmono : Monotone fun level => (g.lowSymbols property (level + 1)).card :=
    fun level more hle => Finset.card_le_card (lowSymbols_subset (Nat.succ_le_succ hle))
  have hstable : ∀ level, (g.lowSymbols property (level + 1)).card =
      (g.lowSymbols property (level + 1 + 1)).card →
      (g.lowSymbols property (level + 1 + 1)).card =
        (g.lowSymbols property (level + 2 + 1)).card := by
    intro level hcard
    have hsame := (lowSymbols_eq_iff (Nat.le_succ (level + 1))).2 hcard
    rw [lowSymbols_stable (Nat.le_add_left 1 level) hsame]
  have hcard := Nat.stabilises_of_monotone hmono
    (fun level => g.card_lowSymbols_le property (level + 1)) hstable
    (le_max_right bound g.nonterminals.length)
  have hequal := (lowSymbols_eq_iff (Nat.succ_le_succ (le_max_right bound _))).2 hcard.symm
  have hhigh : symbol ∈ g.lowSymbols property (max bound g.nonterminals.length + 1) :=
    mem_lowSymbols.2 ⟨hsymbol, h.mono (by omega)⟩
  rw [← hequal] at hhigh
  exact (mem_lowSymbols.1 hhigh).2

end Grammar

namespace Expansion

variable {g : Grammar} {e : Expansion} {symbol : Symbol}

/-- An enumeration as deep as there are nonterminals has a tree for every restriction of the
leaves that a derivation tree meets. -/
lemma Exact.exists_tree_iff (h : Exact g e) (hdepth : g.nonterminals.length ≤ e.depth)
    (hsymbol : symbol ∈ g.nonterminals) (property : Symbol → Prop) :
    (∃ tree ∈ e.derivations symbol, ∀ leaf ∈ tree.shape.yield, property leaf) ↔
      ∃ shape, g.IsDerivation symbol shape ∧ ∀ leaf ∈ shape.yield, property leaf := by
  constructor
  · intro ⟨tree, htree, hleaves⟩
    have hshape := (h.mem_shapes_derivations hsymbol).1 (List.mem_map_of_mem htree)
    exact ⟨tree.shape, hshape.1, hleaves⟩
  · intro ⟨shape, hshape, hleaves⟩
    have hsome : g.Low property shape.height symbol :=
      ⟨shape, Grammar.root_of_isDerivation hshape, hshape.1, hleaves, le_rfl⟩
    obtain ⟨low, rfl, hvalid, hlowLeaves, hheight⟩ := hsome.of_nonterminal hsymbol
    have hderivation := hvalid.isDerivation hsymbol
    obtain ⟨tree, htree, rfl⟩ :=
      List.mem_map.1 ((h.mem_shapes_derivations hsymbol).2 ⟨hderivation, by omega⟩)
    exact ⟨tree, htree, hlowLeaves⟩

lemma Exact.derivations_eq_nil_iff (h : Exact g e) (hdepth : g.nonterminals.length ≤ e.depth)
    (hsymbol : symbol ∈ g.nonterminals) :
    e.derivations symbol = [] ↔ ¬ ∃ shape, g.IsDerivation symbol shape := by
  have hiff := h.exists_tree_iff hdepth hsymbol fun _ => True
  simp only [implies_true, and_true] at hiff
  rw [← hiff, List.eq_nil_iff_forall_not_mem, not_exists]

lemma Exact.exists_leaves_eq_zero_iff (h : Exact g e) (hdepth : g.nonterminals.length ≤ e.depth)
    (hsymbol : symbol ∈ g.nonterminals) :
    (∃ tree ∈ e.derivations symbol, tree.leaves = 0) ↔ g.Vanishes symbol := by
  have hiff := h.exists_tree_iff hdepth hsymbol fun _ => False
  simp only [imp_false, ← List.eq_nil_iff_forall_not_mem] at hiff
  rw [Grammar.Vanishes, ← hiff]
  apply exists_congr
  intro tree
  apply and_congr_right
  intro htree
  have hcount : tree.leaves = tree.shape.leafCount :=
    (h.grows_of_mem_derivations htree).built.describes.leaves
  rw [hcount, Shape.leafCount, List.length_eq_zero_iff]

end Expansion

namespace Grammar

open Expansion

variable {g : Grammar}

/-- A complete parse of the empty sentence finds out whether the start symbol vanishes. -/
lemma trees_ne_nil_iff_of_empty_sentence {limits : ParseLimits} {parse : Parse}
    (hroot : g.root ∉ g.nonterminals) (hparse : (g.parse limits []).outcome = .ok parse)
    (hcomplete : parse.truncated = false) :
    parse.trees ≠ [] ↔ ∃ start, g.start? = some start ∧ g.Vanishes start := by
  cases hstart : g.start? with
  | none =>
    rw [Grammar.parse, hstart] at hparse
    obtain rfl := Except.ok.inj hparse
    simp
  | some start =>
    obtain ⟨chart, hparsed⟩ := exists_parsed hstart hparse
    have hshapes : (∃ shape, shape ∈ parse.trees.map Tree.shape) ↔ g.Vanishes start := by
      apply exists_congr
      intro shape
      rw [hparsed.mem_shapes_iff_isDerivation hroot hstart hcomplete, List.map_eq_nil_iff]
    constructor
    · intro hsome
      obtain ⟨tree, htree⟩ := List.exists_mem_of_ne_nil _ hsome
      exact ⟨start, rfl, hshapes.1 ⟨tree.shape, List.mem_map_of_mem htree⟩⟩
    · intro hvanishing
      obtain ⟨symbol, hsymbol, hvanishes⟩ := hvanishing
      obtain rfl := Option.some.inj hsymbol
      obtain ⟨shape, hshape⟩ := hshapes.2 hvanishes
      obtain ⟨tree, htree, _⟩ := List.mem_map.1 hshape
      exact List.ne_nil_of_mem htree

/-- Unrealizable and nullable nonterminals are told apart by the trees of an enumeration that is
as deep as there are nonterminals, and a complete parse of the empty sentence has a tree exactly
when the start symbol is nullable. -/
theorem exists_analysis_iff_trees (hnames : g.NamesAll) :
    ∃ a, g.analysis = .ok a ∧
      (∀ limit e, Reachable g limit e → g.nonterminals.length ≤ e.depth →
        ∀ symbol ∈ g.nonterminals,
          (a.unrealizable.contains symbol = true ↔ e.derivations symbol = []) ∧
          (a.nullable.contains symbol = true ↔ ∃ tree ∈ e.derivations symbol, tree.leaves = 0)) ∧
      ∀ limits parse, (g.parse limits []).outcome = .ok parse → parse.truncated = false →
        (parse.trees ≠ [] ↔
          ∃ start, g.start? = some start ∧ a.nullable.contains start = true) := by
  obtain ⟨a, hanalysis, hexplains⟩ := exists_analysis hnames.namesLeft
  refine ⟨a, hanalysis, ?_, ?_⟩
  · intro limit e h hdepth symbol hsymbol
    rw [hexplains.unrealizable_iff hnames hsymbol, hexplains.nullable.contains,
      h.exact.derivations_eq_nil_iff hdepth hsymbol,
      h.exact.exists_leaves_eq_zero_iff hdepth hsymbol]
    exact ⟨Iff.rfl, Iff.rfl⟩
  · intro limits parse hparse hcomplete
    simp only [hexplains.nullable.contains]
    exact trees_ne_nil_iff_of_empty_sentence hnames.root_not_mem hparse hcomplete

/-- The start symbol vanishes by way of two other nonterminals, and one nonterminal never ends:
`S → T | a U`, `T → N N`, `N → b | `, `U → U a`. -/
def silentChain : Grammar :=
  (((({} : Grammar).addAlternatives "S" "T|aU").addAlternatives "T" "NN").addAlternatives
    "N" "b|").addAlternatives "U" "Ua"

theorem exists_analysis_iff_silentChain :
    silentChain.NamesAll ∧ silentChain.nonterminals = [⟨0⟩, ⟨1⟩, ⟨4⟩, ⟨3⟩] ∧
      ∃ a e parse, silentChain.analysis = .ok a ∧ Reachable silentChain 1000 e ∧ e.depth = 4 ∧
        (silentChain.parse {} []).outcome = .ok parse ∧ parse.truncated = false ∧
        (∀ symbol ∈ silentChain.nonterminals,
          (a.unrealizable.contains symbol = true ↔ e.derivations symbol = []) ∧
          (a.nullable.contains symbol = true ↔ ∃ tree ∈ e.derivations symbol, tree.leaves = 0)) ∧
        (parse.trees ≠ [] ↔
          ∃ start, silentChain.start? = some start ∧ a.nullable.contains start = true) ∧
        a.unrealizable.contains ⟨3⟩ = true ∧ a.nullable.contains ⟨0⟩ = true ∧
        (e.derivations ⟨0⟩).length = 4 ∧ parse.trees.length = 1 := by
  have hnames : silentChain.NamesAll := by
    rw [NamesAll]
    decide
  have hsteps : ((start silentChain 1000).run 4).outcome.map (fun ended =>
      (ended.2.depth, (ended.2.derivations ⟨0⟩).length)) = .ok (4, 4) := by cbv
  have hsets : silentChain.analysis.map (fun a =>
      (a.unrealizable.contains ⟨3⟩, a.nullable.contains ⟨0⟩)) = .ok (true, true) := by cbv
  have hrun : (silentChain.parse {} []).outcome.map (fun parse =>
      (parse.truncated, parse.trees.length)) = .ok (false, 1) := by cbv
  obtain ⟨⟨enumeration, e⟩, hexpand, hstate⟩ := map_eq_ok_iff.1 hsteps
  obtain ⟨hdepth, hlength⟩ := Prod.mk.inj hstate
  obtain ⟨parse, hparse, hview⟩ := map_eq_ok_iff.1 hrun
  obtain ⟨hcomplete, htrees⟩ := Prod.mk.inj hview
  have hreachable : Reachable silentChain 1000 e := .run .start hexpand
  obtain ⟨a, hanalysis, henumerated, hparsed⟩ := exists_analysis_iff_trees hnames
  rw [hanalysis] at hsets
  obtain ⟨hunrealizable, hnullable⟩ := Prod.mk.inj (Except.ok.inj hsets)
  exact ⟨hnames, by decide, a, e, parse, hanalysis, hreachable, hdepth, hparse, hcomplete,
    henumerated 1000 e hreachable hdepth.ge, hparsed {} parse hparse hcomplete, hunrealizable,
    hnullable, hlength, htrees⟩

end Grammar

end ContextFree
