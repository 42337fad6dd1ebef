import ContextFree.Proofs.Exhausting
import ContextFree.Proofs.Parsing

/-!
# Agreement of parser and enumerator

A parse that is not cut holds the derivation trees of one sentence, whatever their height. A
state of an enumeration holds those up to some height, whatever their sentence. Where the two
overlap they hold the same trees, once each. The trees are the same in everything that is kept
about them, since names and measures of a tree grown from a grammar follow from its shape.
-/
namespace ContextFree

open Position

variable {g : Grammar} {start : Symbol} {tokens : List (Option Symbol)}

/-- The shapes of a parse that is not cut are those of the derivation trees for the input. -/
lemma Parsed.mem_shapes_iff_isDerivation {limit : ℕ} {parse : Parse} {chart : List Position}
    (h : Parsed g limit start tokens parse chart) (hroot : g.root ∉ g.nonterminals)
    (hstart : g.start? = some start) (hcomplete : parse.truncated = false) {shape : Shape} :
    shape ∈ parse.trees.map Tree.shape ↔
      g.IsDerivation start shape ∧ shape.yield.map some = tokens := by
  constructor
  · intro hshape
    obtain ⟨tree, htree, rfl⟩ := List.mem_map.1 hshape
    obtain ⟨hderivation, hyield, _⟩ := Grammar.isDerivation_of_parsed h hroot hstart htree
    exact ⟨hderivation, hyield⟩
  · intro ⟨hderivation, hyield⟩
    have hwhole : Whole g limit start tokens chart :=
      ⟨h.charts, uncut_of_any (h.truncated.symm.trans hcomplete)⟩
    rw [h.mem_shapes_iff hroot]
    apply hwhole.moves hroot hderivation.1 0 tokens.length g.root [] tokens.length []
      (Nat.zero_le _) le_rfl
    · rw [hyield, between_all]
    · rw [Grammar.root_of_isDerivation hderivation]
      exact hwhole.holds_root

namespace Grammar

open Expansion

variable {limit : ℕ} {limits : ParseLimits} {parse : Parse} {e : Expansion}

/-- The trees of a complete parse that are low enough for the depth of an enumeration are the
enumerated trees of the start symbol whose sentence is the input. -/
theorem perm_startTrees_of_complete_parse (hroot : g.root ∉ g.nonterminals)
    (hparse : (g.parse limits tokens).outcome = .ok parse) (hcomplete : parse.truncated = false)
    (h : Reachable g limit e) :
    (parse.trees.filter fun tree => tree.height ≤ e.depth + 1).Perm
      (e.startTrees.filter fun tree => tree.shape.yield.map some = tokens) := by
  have hexact := h.exact
  cases hstart : g.start? with
  | none =>
    rw [Grammar.parse, hstart] at hparse
    obtain rfl := Except.ok.inj hparse
    simp [startTrees, hexact.grammar, hstart]
  | some start =>
    obtain ⟨chart, hparsed⟩ := exists_parsed hstart hparse
    have hsymbol := start_mem_nonterminals hstart
    have hparsedShapes := hparsed.nodup_shapes hroot
    have hfoundShapes := hexact.nodup_derivations hsymbol
    have hparsedGrow : ∀ tree ∈ parse.trees, g.Grows tree :=
      fun tree htree => (isDerivation_of_parsed hparsed hroot hstart htree).2.2
    have hfoundGrow : ∀ tree ∈ e.derivations start, g.Grows tree :=
      fun tree htree => hexact.grows_of_mem_derivations htree
    have hfound : e.startTrees = e.derivations start := by
      rw [startTrees, hexact.grammar, hstart]
    rw [hfound, List.perm_ext_iff_of_nodup (hparsedShapes.of_map _ |>.filter _)
      (hfoundShapes.of_map _ |>.filter _)]
    intro tree
    -- both sides hold grown trees, so only the conditions on the shape are left to compare
    rw [List.mem_filter, List.mem_filter, mem_iff_of_grows hparsedGrow,
      mem_iff_of_grows hfoundGrow, hexact.mem_shapes_derivations hsymbol,
      hparsed.mem_shapes_iff_isDerivation hroot hstart hcomplete, decide_eq_true_iff,
      decide_eq_true_iff]
    constructor
    · intro h
      obtain ⟨⟨hgrows, hderivation, hyield⟩, hheight⟩ := h
      rw [hgrows.height_eq] at hheight
      exact ⟨⟨hgrows, hderivation, hheight⟩, hyield⟩
    · intro h
      obtain ⟨⟨hgrows, hderivation, hheight⟩, hyield⟩ := h
      rw [← hgrows.height_eq] at hheight
      exact ⟨⟨hgrows, hderivation, hyield⟩, hheight⟩

/-- A word with derivation trees of three heights, one of them written down twice:
`S → A b | b | b | T`, `A → a | `, `T → A b`. -/
def unevenHeights : Grammar :=
  ((({} : Grammar).addAlternatives "S" "Ab|b|b|T").addAlternatives "A" "a|").addAlternatives
    "T" "Ab"

/-- After two steps the highest of the three trees is not there yet, and a tree of another word
is there. -/
theorem perm_startTrees_unevenHeights :
    unevenHeights.root ∉ unevenHeights.nonterminals ∧
      ∃ parse e, (unevenHeights.parseNames {} ["b"]).outcome = .ok parse ∧
        parse.truncated = false ∧ parse.trees.map Tree.height = [2, 3, 4] ∧
        Reachable unevenHeights 1000 e ∧ e.depth = 2 ∧
        e.startTrees.map Tree.sentence = ["a b", "b", "b"] ∧
        (parse.trees.filter fun tree => tree.height ≤ 2 + 1).Perm
          (e.startTrees.filter fun tree =>
            tree.shape.yield.map some = ["b"].map unevenHeights.symbol?) := by
  have hroot : unevenHeights.root ∉ unevenHeights.nonterminals := by decide
  have hrun : (unevenHeights.parseNames {} ["b"]).outcome.map (fun parse =>
      (parse.truncated, parse.trees.map Tree.height)) = .ok (false, [2, 3, 4]) := by cbv
  have hsteps : ((start unevenHeights 1000).run 2).outcome.map (fun ended =>
      (ended.2.depth, ended.2.startTrees.map Tree.sentence)) = .ok (2, ["a b", "b", "b"]) := by cbv
  obtain ⟨parse, hparse, hview⟩ := map_eq_ok_iff.1 hrun
  obtain ⟨hcomplete, hheights⟩ := Prod.mk.inj hview
  obtain ⟨⟨enumeration, e⟩, hexpand, hstate⟩ := map_eq_ok_iff.1 hsteps
  obtain ⟨hdepth, hsentences⟩ := Prod.mk.inj hstate
  have hreachable : Reachable unevenHeights 1000 e := .run .start hexpand
  have hperm := perm_startTrees_of_complete_parse hroot hparse hcomplete hreachable
  rw [hdepth] at hperm
  exact ⟨hroot, parse, e, hparse, hcomplete, hheights, hreachable, hdepth, hsentences, hperm⟩

end Grammar

end ContextFree
