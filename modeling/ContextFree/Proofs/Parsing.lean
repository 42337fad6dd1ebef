import ContextFree.Grammar.Text
import ContextFree.Parse
import ContextFree.Proofs.Advancing
import Mathlib

/-!
# Trees of a parse

The finished root items at the first position of a chart hold one tree each, and these trees are
the derivation trees of the start symbol for the input: only such trees, whether or not
positions were cut, and all of them when none was. No two of them are equal. The input may name
symbols the grammar does not know; such an input, and one with a nonterminal in it, has no
derivation tree.
-/
namespace ContextFree

open Position

variable {g : Grammar} {start : Symbol} {tokens : List (Option Symbol)}

/-- The view of a finished root item that matched a given shape. -/
def Dotted.ofRoot (g : Grammar) (finish : ℕ) (shape : Shape) : Dotted :=
  ⟨g.root, [], finish, [shape]⟩

lemma Dotted.ofRoot_injective (g : Grammar) (finish : ℕ) :
    Function.Injective (Dotted.ofRoot g finish) := by
  intro a b h
  exact List.singleton_inj.1 (Dotted.mk.inj h).2.2.2

lemma Item.parsed_of_rootTree {item : Item} {tree : Tree} (h : item.rootTree = .ok tree) :
    item.parsed = [tree] := by
  unfold rootTree at h
  split at h
  · next parsed hparsed => rw [hparsed, Except.ok.inj h]
  · cases h

lemma Grammar.isFinishedRoot_iff {item : Item} :
    g.isFinishedRoot item = true ↔ item.lhs = g.root ∧ item.pending = [] := by
  simp [isFinishedRoot, Item.isFinished]

/-- The finished root items seen through the trees taken from them. -/
lemma map_dotted_of_rootTrees {finish : ℕ} {items : List Item} {trees : List Tree}
    (hitems : ∀ item ∈ items, item.lhs = g.root ∧ item.pending = [] ∧ item.finish = finish)
    (h : items.mapM Item.rootTree = .ok trees) :
    items.map Item.dotted = (trees.map Tree.shape).map (Dotted.ofRoot g finish) := by
  replace h := mapM_eq_ok_iff.1 h
  induction h with
  | nil => rfl
  | cons hroot _ ih =>
    obtain ⟨⟨hlhs, hpending, hfinish⟩, hrest⟩ := List.forall_mem_cons.1 hitems
    have hparsed := Item.parsed_of_rootTree hroot
    rw [List.map_cons, List.map_cons, List.map_cons, ih hrest]
    simp [Item.dotted, Dotted.ofRoot, hlhs, hpending, hfinish, hparsed]

lemma Grammar.derivations_eq (g : Grammar) (chart : List Position) :
    g.derivations chart = ((itemsIn chart 0).filter g.isFinishedRoot).mapM Item.rootTree := by
  rw [Grammar.derivations, itemsIn, List.head?_eq_getElem?]

/-- What a parse with a start symbol is made of: a chart, and the trees of the finished root items
at its first position. -/
structure Parsed (g : Grammar) (limit : ℕ) (start : Symbol) (tokens : List (Option Symbol))
    (parse : Parse) (chart : List Position) : Prop where
  charts : Charts g limit start tokens 0 chart
  trees : ((itemsIn chart 0).filter g.isFinishedRoot).mapM Item.rootTree = .ok parse.trees
  truncated : parse.truncated = chart.any Position.cut

lemma Grammar.outcome_parse {limits : ParseLimits} (hstart : g.start? = some start) :
    (g.parse limits tokens).outcome =
      (g.chart limits.stateSize start tokens).outcome >>= fun chart =>
        (g.derivations chart).map fun trees => ⟨trees, chart.any Position.cut⟩ := by
  rw [Grammar.parse, hstart]
  simp only [Logged.outcome_bind]
  rfl

/-- A parse has an outcome when its chart has one and the trees can be taken from it. -/
lemma Grammar.parse_eq_ok_iff {limits : ParseLimits} {parse : Parse}
    (hstart : g.start? = some start) : (g.parse limits tokens).outcome = .ok parse ↔
      ∃ chart, (g.chart limits.stateSize start tokens).outcome = .ok chart ∧
        g.derivations chart = .ok parse.trees ∧ parse.truncated = chart.any Position.cut := by
  rw [Grammar.outcome_parse hstart, bind_eq_ok_iff]
  constructor
  · intro ⟨chart, hchart, h⟩
    obtain ⟨trees, htrees, rfl⟩ := map_eq_ok_iff.1 h
    exact ⟨chart, hchart, htrees, rfl⟩
  · intro ⟨chart, hchart, htrees, htruncated⟩
    refine ⟨chart, hchart, ?_⟩
    rw [htrees, ← htruncated]
    rfl

lemma exists_parsed {limits : ParseLimits} {parse : Parse} (hstart : g.start? = some start)
    (h : (g.parse limits tokens).outcome = .ok parse) :
    ∃ chart, Parsed g limits.stateSize start tokens parse chart := by
  obtain ⟨chart, hchart, htrees, htruncated⟩ := (Grammar.parse_eq_ok_iff hstart).1 h
  rw [Grammar.derivations_eq] at htrees
  exact ⟨chart, Grammar.charts_of_chart hchart, htrees, htruncated⟩

lemma uncut_of_any {chart : List Position} (h : chart.any Position.cut = false) :
    ∀ here ∈ chart, here.cut = false := by
  rw [List.any_eq_false] at h
  simpa using h

namespace Parsed

variable {limit : ℕ} {parse : Parse} {chart : List Position}

lemma finish_of_root (h : Parsed g limit start tokens parse chart)
    (hroot : g.root ∉ g.nonterminals) {item : Item} (hitem : item ∈ itemsIn chart 0)
    (hlhs : item.lhs = g.root) : item.rhs = [start] ∧ item.finish = tokens.length :=
  (h.charts.fits 0 item hitem).of_root hroot hlhs

/-- The finished root items are those of the trees, in the same order. -/
lemma map_dotted (h : Parsed g limit start tokens parse chart) (hroot : g.root ∉ g.nonterminals) :
    ((itemsIn chart 0).filter g.isFinishedRoot).map Item.dotted =
      (parse.trees.map Tree.shape).map (Dotted.ofRoot g tokens.length) := by
  refine map_dotted_of_rootTrees (fun item hitem => ?_) h.trees
  obtain ⟨hmem, hfinished⟩ := List.mem_filter.1 hitem
  obtain ⟨hlhs, hpending⟩ := Grammar.isFinishedRoot_iff.1 hfinished
  exact ⟨hlhs, hpending, (h.finish_of_root hroot hmem hlhs).2⟩

lemma mem_shapes_iff (h : Parsed g limit start tokens parse chart)
    (hroot : g.root ∉ g.nonterminals) {shape : Shape} :
    shape ∈ parse.trees.map Tree.shape ↔
      Holds chart 0 (Dotted.ofRoot g tokens.length shape) := by
  rw [← List.mem_map_of_injective (Dotted.ofRoot_injective g tokens.length),
    ← h.map_dotted hroot, Holds]
  simp only [List.mem_map, List.mem_filter]
  constructor
  · rintro ⟨item, ⟨hitem, _⟩, hdotted⟩
    exact ⟨item, hitem, hdotted⟩
  · rintro ⟨item, hitem, hdotted⟩
    obtain ⟨hlhs, hpending, _, _⟩ := Dotted.mk.inj hdotted
    exact ⟨item, ⟨hitem, Grammar.isFinishedRoot_iff.2 ⟨hlhs, hpending⟩⟩, hdotted⟩

lemma nodup_shapes (h : Parsed g limit start tokens parse chart)
    (hroot : g.root ∉ g.nonterminals) : (parse.trees.map Tree.shape).Nodup := by
  obtain ⟨here, hhere, hbuilt⟩ := h.charts.built_at (Nat.zero_le tokens.length)
  have hdistinct := distinct_of_build hbuilt
  rw [← itemsIn_of_getElem? hhere] at hdistinct
  have hfiltered := hdistinct.filter g.isFinishedRoot
  rw [← List.pairwise_map, h.map_dotted hroot] at hfiltered
  exact List.Nodup.of_map (Dotted.ofRoot g tokens.length) hfiltered

end Parsed

namespace Grammar

variable {limits : ParseLimits} {parse : Parse}

/-- When no position was cut, every derivation tree of the start symbol for the input is among
the trees of the parse, exactly once. -/
theorem count_trees_of_complete_parse (hroot : g.root ∉ g.nonterminals)
    (hparse : (g.parse limits tokens).outcome = .ok parse) (hcomplete : parse.truncated = false)
    (hstart : g.start? = some start) {tree : Tree} (htree : g.IsDerivation start tree.shape)
    (hyield : tree.shape.yield.map some = tokens) : parse.trees.count tree = 1 := by
  obtain ⟨chart, hparsed⟩ := exists_parsed hstart hparse
  have huncut : ∀ here ∈ chart, here.cut = false := by
    rw [hparsed.truncated, List.any_eq_false] at hcomplete
    simpa using hcomplete
  have hwhole : Whole g limits.stateSize start tokens chart := ⟨hparsed.charts, huncut⟩
  have hholds : Holds chart 0 ⟨g.root, [], tokens.length, [tree.shape]⟩ := by
    refine hwhole.moves hroot htree.1 0 tokens.length g.root [] tokens.length []
      (Nat.zero_le _) le_rfl ?_ ?_
    · rw [hyield, between_all]
    · rw [root_of_isDerivation htree]
      exact hwhole.holds_root
  exact Tree.count_eq_one (hparsed.nodup_shapes hroot) ((hparsed.mem_shapes_iff hroot).2 hholds)

/-- A grammar with left recursion that hides behind the empty word, `S → A S b | c` and
`A → a | ε`. -/
def hiddenRecursion : Grammar :=
  (({} : Grammar).addAlternatives "S" "ASb|c").addAlternatives "A" "a|"

/-- The tree `S(A() S(A(a) S(c) b) b)`. Its measures are left open. -/
def hiddenTree : Tree :=
  let core : Tree := .nonterminal ⟨0⟩ [.terminal ⟨3⟩ "c"] .emptyRow
  let named : Tree := .nonterminal ⟨1⟩ [.terminal ⟨4⟩ "a"] .emptyRow
  let inner : Tree := .nonterminal ⟨0⟩ [named, core, .terminal ⟨2⟩ "b"] .emptyRow
  .nonterminal ⟨0⟩ [.nonterminal ⟨1⟩ [] .emptyRow, inner, .terminal ⟨2⟩ "b"] .emptyRow

theorem count_trees_hiddenRecursion :
    hiddenRecursion.root ∉ hiddenRecursion.nonterminals ∧
      hiddenRecursion.start? = some ⟨0⟩ ∧
      hiddenRecursion.IsDerivation ⟨0⟩ hiddenTree.shape ∧
      hiddenTree.shape.yield.map some = ["a", "c", "b", "b"].map hiddenRecursion.symbol? ∧
      ∃ parse, (hiddenRecursion.parseNames {} ["a", "c", "b", "b"]).outcome = .ok parse ∧
        parse.truncated = false ∧ parse.trees.count hiddenTree = 1 := by
  have hroot : hiddenRecursion.root ∉ hiddenRecursion.nonterminals := by decide
  have hstart : hiddenRecursion.start? = some ⟨0⟩ := by decide
  have htree : hiddenRecursion.IsDerivation ⟨0⟩ hiddenTree.shape := by decide
  have hyield : hiddenTree.shape.yield.map some =
      ["a", "c", "b", "b"].map hiddenRecursion.symbol? := by decide
  have hrun : (hiddenRecursion.parseNames {} ["a", "c", "b", "b"]).outcome.map Parse.truncated =
      .ok false := by cbv
  obtain ⟨parse, hparse, hcomplete⟩ := map_eq_ok_iff.1 hrun
  exact ⟨hroot, hstart, htree, hyield, parse, hparse, hcomplete,
    count_trees_of_complete_parse hroot hparse hcomplete hstart htree hyield⟩

/-- The trees taken from a chart are derivation trees for the input, and their leaves are named
by the grammar. -/
lemma isDerivation_of_parsed {limit : ℕ} {chart : List Position}
    (h : Parsed g limit start tokens parse chart) (hroot : g.root ∉ g.nonterminals)
    (hstart : g.start? = some start) {tree : Tree} (htree : tree ∈ parse.trees) :
    g.IsDerivation start tree.shape ∧ tree.shape.yield.map some = tokens ∧ g.Grows tree := by
  obtain ⟨item, hitem, hrootTree⟩ := exists_of_mem_mapM h.trees tree htree
  obtain ⟨hmem, hfinished⟩ := List.mem_filter.1 hitem
  obtain ⟨hlhs, hpending⟩ := isFinishedRoot_iff.1 hfinished
  have hparsed := Item.parsed_of_rootTree hrootTree
  have hfits := h.charts.fits 0 item hmem
  obtain ⟨hrhs, hfinish⟩ := h.finish_of_root hroot hmem hlhs
  have hsymbol : tree.shape.root = start := by
    rw [Item.rhs_of_finished hpending, hparsed] at hrhs
    simpa using hrhs
  have hvalid : g.Valid tree.shape := hfits.valid tree (by simp [hparsed])
  have hyield := hfits.yield
  rw [hparsed, hfinish, between_all] at hyield
  refine ⟨?_, by simpa using hyield, hfits.grown tree (by simp [hparsed])⟩
  rw [← hsymbol]
  exact hvalid.isDerivation (hsymbol ▸ start_mem_nonterminals hstart)

/-- Every tree of a parse, cut or not, is a derivation tree of the start symbol for the input,
with the names of the input as its sentence. No two trees are equal, and there is none for an
input with an unknown name or a nonterminal. -/
theorem trees_of_parse (hroot : g.root ∉ g.nonterminals)
    (hparse : (g.parse limits tokens).outcome = .ok parse) :
    (∀ tree ∈ parse.trees,
      (∃ start, g.start? = some start ∧ g.IsDerivation start tree.shape) ∧
        tree.shape.yield.map some = tokens ∧
        tree.sentence = Measure.phrase (tokens.filterMap fun token => token.bind g.name?)) ∧
      parse.trees.Pairwise (fun a b => (a == b) = false) ∧
      (none ∈ tokens ∨ (∃ symbol ∈ g.nonterminals, some symbol ∈ tokens) → parse.trees = []) := by
  cases hstart : g.start? with
  | none =>
    rw [Grammar.parse, hstart] at hparse
    obtain rfl := Except.ok.inj hparse
    simp
  | some start =>
    obtain ⟨chart, hparsed⟩ := exists_parsed hstart hparse
    refine ⟨fun tree htree => ?_, ?_, fun hforeign => ?_⟩
    · obtain ⟨hderivation, hyield, hgrows⟩ := isDerivation_of_parsed hparsed hroot hstart htree
      refine ⟨⟨start, rfl, hderivation⟩, hyield, ?_⟩
      rw [hgrows.sentence_eq, ← hyield, List.filterMap_map]
      exact Measure.phrase_map_getD g.name? tree.shape.yield
    · exact Tree.pairwise_iff_nodup.2 (hparsed.nodup_shapes hroot)
    · rw [List.eq_nil_iff_forall_not_mem]
      intro tree htree
      obtain ⟨hderivation, hyield, _⟩ := isDerivation_of_parsed hparsed hroot hstart htree
      rw [← hyield] at hforeign
      rcases hforeign with hnone | ⟨symbol, hnonterminal, hsymbol⟩
      · simp at hnone
      · have hleaf : symbol ∈ tree.shape.yield := by simpa using hsymbol
        exact hderivation.1.terminal_of_mem_yield symbol hleaf hnonterminal

/-- A grammar with infinitely many derivations of one word, `S → S | a`. -/
def selfLoop : Grammar := ({} : Grammar).addAlternatives "S" "S|a"

/-- A cut parse has three of the trees. A nonterminal or an unknown name in the input leaves
none. -/
theorem trees_of_truncated_selfLoop :
    selfLoop.root ∉ selfLoop.nonterminals ∧
      (∃ parse, (selfLoop.parseNames ⟨5⟩ ["a"]).outcome = .ok parse ∧ parse.truncated = true ∧
        parse.trees.map Tree.height = [2, 3, 4] ∧
        (∀ tree ∈ parse.trees,
          (∃ start, selfLoop.start? = some start ∧ selfLoop.IsDerivation start tree.shape) ∧
            tree.shape.yield.map some = ["a"].map selfLoop.symbol? ∧
            tree.sentence = Measure.phrase
              ((["a"].map selfLoop.symbol?).filterMap fun token => token.bind selfLoop.name?)) ∧
        parse.trees.Pairwise (fun a b => (a == b) = false)) ∧
      (∃ parse, (selfLoop.parseNames ⟨5⟩ ["a", "S"]).outcome = .ok parse ∧ parse.trees = []) ∧
      ∃ parse, (selfLoop.parseNames ⟨5⟩ ["b"]).outcome = .ok parse ∧ parse.trees = [] := by
  have hroot : selfLoop.root ∉ selfLoop.nonterminals := by decide
  have hrun : (selfLoop.parseNames ⟨5⟩ ["a"]).outcome.map
      (fun parse => (parse.truncated, parse.trees.map Tree.height)) = .ok (true, [2, 3, 4]) := by
    cbv
  have hrun' : (selfLoop.parseNames ⟨5⟩ ["a", "S"]).outcome.map Parse.truncated = .ok false := by
    cbv
  have hrun'' : (selfLoop.parseNames ⟨5⟩ ["b"]).outcome.map Parse.truncated = .ok false := by cbv
  obtain ⟨parse, hparse, hview⟩ := map_eq_ok_iff.1 hrun
  obtain ⟨htruncated, hheights⟩ := Prod.mk.inj hview
  obtain ⟨parse', hparse', _⟩ := map_eq_ok_iff.1 hrun'
  obtain ⟨parse'', hparse'', _⟩ := map_eq_ok_iff.1 hrun''
  obtain ⟨htrees, hdistinct, _⟩ := trees_of_parse hroot hparse
  have hnonterminal : ∃ symbol ∈ selfLoop.nonterminals,
      some symbol ∈ ["a", "S"].map selfLoop.symbol? := ⟨⟨0⟩, by decide, by decide⟩
  have hunknown : none ∈ ["b"].map selfLoop.symbol? := by decide
  exact ⟨hroot, ⟨parse, hparse, htruncated, hheights, htrees, hdistinct⟩,
    ⟨parse', hparse', (trees_of_parse hroot hparse').2.2 (.inr hnonterminal)⟩,
    parse'', hparse'', (trees_of_parse hroot hparse'').2.2 (.inl hunknown)⟩

end Grammar

end ContextFree
