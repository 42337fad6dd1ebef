import ContextFree.Grammar.Text
import ContextFree.Proofs.Deepening
import ContextFree.Proofs.Measures
import ContextFree.Proofs.Productions
import Mathlib

/-!
# Exactness of the enumeration

After `d` steps an enumeration holds, for every nonterminal, its derivation trees of height at
most `d + 1`, each of them once. A step reads the old languages only, so a tree of height
`d + 2` is found when its children, of height at most `d + 1`, were there before. A nonterminal
without children has two levels, which is why the height is one ahead of the depth.
-/
namespace ContextFree

namespace Expansion

variable {g : Grammar} {limit : ℕ} {e next : Expansion}

lemma mem_products {rhs : List Symbol} {row : List Tree} :
    row ∈ e.products rhs ↔
      List.Forall₂ (fun symbol tree => tree ∈ e.choices symbol) rhs row := by
  induction rhs generalizing row with
  | nil => simp
  | cons symbol rhs ih =>
    simp only [products_cons, prepend, List.mem_flatMap, List.mem_map,
      List.forall₂_cons_left_iff, ih]
    constructor
    · rintro ⟨tree, htree, rest, hrest, rfl⟩
      exact ⟨tree, rest, htree, hrest, rfl⟩
    · rintro ⟨tree, rest, htree, hrest, rfl⟩
      exact ⟨tree, htree, rest, hrest, rfl⟩

/-- The trees of every nonterminal are its derivation trees up to the height that goes with the
depth, once each. -/
structure Exact (g : Grammar) (e : Expansion) : Prop where
  grammar : e.grammar = g
  symbols : e.languages.map Language.symbol = g.nonterminals
  distinct : ∀ language ∈ e.languages, (language.trees.map Tree.shape).Nodup
  grown : ∀ language ∈ e.languages, ∀ tree ∈ language.trees, g.Grows tree
  exact : ∀ language ∈ e.languages, ∀ shape, shape ∈ language.trees.map Tree.shape ↔
    g.IsDerivation language.symbol shape ∧ shape.height ≤ e.depth + 1

/-- A derivation tree has two levels at least, so none is missing at the start. -/
lemma Exact.start (g : Grammar) (limit : ℕ) : Exact g (.start g limit) where
  grammar := rfl
  symbols := by simp [Expansion.start, Function.comp_def]
  distinct := by simp [Expansion.start]
  grown := by simp [Expansion.start]
  exact := by
    simp only [Expansion.start, List.mem_map]
    rintro _ ⟨symbol, _, rfl⟩ shape
    constructor
    · simp
    · rintro ⟨⟨_, children, rfl⟩, hheight⟩
      exact absurd hheight (Nat.not_le.2 (Shape.two_le_height_node symbol children))

namespace Exact

variable {symbol : Symbol}

lemma of_cost (h : Exact g e) (cost : ℕ) : Exact g { e with cost } :=
  ⟨h.grammar, h.symbols, h.distinct, h.grown, h.exact⟩

lemma exists_language (h : Exact g e) (hsymbol : symbol ∈ g.nonterminals) :
    ∃ language ∈ e.languages, language.symbol = symbol ∧
      e.trees? symbol = some language.trees := by
  rw [← h.symbols, List.mem_map] at hsymbol
  obtain ⟨other, hother, hsymbol⟩ := hsymbol
  have hfound : (e.languages.find? fun language => language.symbol = symbol).isSome = true := by
    rw [List.find?_isSome]
    exact ⟨other, hother, by simpa using hsymbol⟩
  obtain ⟨language, hfind⟩ := Option.isSome_iff_exists.1 hfound
  refine ⟨language, List.mem_of_find?_eq_some hfind, by simpa using List.find?_some hfind, ?_⟩
  rw [trees?, hfind, Option.map_some]

lemma trees?_of_terminal (h : Exact g e) (hsymbol : symbol ∉ g.nonterminals) :
    e.trees? symbol = none := by
  rw [trees?, Option.map_eq_none_iff, List.find?_eq_none]
  intro language hlanguage heq
  have hmem := List.mem_map_of_mem (f := Language.symbol) hlanguage
  rw [h.symbols, of_decide_eq_true heq] at hmem
  exact hsymbol hmem

/-- What may stand for a symbol: the valid shapes under it up to the height of the depth. -/
lemma mem_shapes_choices (h : Exact g e) {shape : Shape} :
    shape ∈ (e.choices symbol).map Tree.shape ↔
      shape.root = symbol ∧ g.Valid shape ∧ shape.height ≤ e.depth + 1 := by
  by_cases hsymbol : symbol ∈ g.nonterminals
  · obtain ⟨language, hlanguage, hlhs, htrees⟩ := h.exists_language hsymbol
    rw [choices, htrees, Option.getD_some, h.exact language hlanguage, hlhs]
    constructor
    · rintro ⟨hderivation, hheight⟩
      exact ⟨Grammar.root_of_isDerivation hderivation, hderivation.1, hheight⟩
    · rintro ⟨rfl, hvalid, hheight⟩
      exact ⟨hvalid.isDerivation hsymbol, hheight⟩
  · rw [choices, h.trees?_of_terminal hsymbol, Option.getD_none, h.grammar, List.map_singleton,
      List.mem_singleton, Grammar.shape_leaf]
    constructor
    · rintro rfl
      exact ⟨rfl, .leaf symbol hsymbol, by simp⟩
    · rintro ⟨rfl, hvalid, _⟩
      cases hvalid with
      | leaf => rfl
      | node root children production _ =>
        exact absurd (Grammar.lhs_mem_nonterminals production) hsymbol

lemma grown_of_mem_choices (h : Exact g e) {tree : Tree} (htree : tree ∈ e.choices symbol) :
    g.Grows tree := by
  by_cases hsymbol : symbol ∈ g.nonterminals
  · obtain ⟨language, hlanguage, _, htrees⟩ := h.exists_language hsymbol
    rw [choices, htrees, Option.getD_some] at htree
    exact h.grown language hlanguage tree htree
  · rw [choices, h.trees?_of_terminal hsymbol, Option.getD_none, h.grammar] at htree
    rw [List.mem_singleton.1 htree]
    exact .leaf symbol

lemma grown_of_mem_products (h : Exact g e) {rhs : List Symbol} {row : List Tree}
    (hrow : row ∈ e.products rhs) : ∀ tree ∈ row, g.Grows tree := by
  replace hrow := mem_products.1 hrow
  induction hrow with
  | nil => simp
  | cons htree _ ih => exact List.forall_mem_cons.2 ⟨h.grown_of_mem_choices htree, ih⟩

lemma mem_shapes_products (h : Exact g e) {rhs : List Symbol} {shapes : List Shape} :
    (∃ row ∈ e.products rhs, row.map Tree.shape = shapes) ↔
      shapes.map Shape.root = rhs ∧
        ∀ shape ∈ shapes, g.Valid shape ∧ shape.height ≤ e.depth + 1 := by
  simp only [mem_products]
  induction rhs generalizing shapes with
  | nil =>
    simp only [List.forall₂_nil_left_iff, exists_eq_left, List.map_nil, List.map_eq_nil_iff]
    constructor
    · rintro rfl
      simp
    · rintro ⟨rfl, _⟩
      rfl
  | cons symbol rhs ih =>
    constructor
    · rintro ⟨row, hrow, rfl⟩
      obtain ⟨tree, rest, htree, hrest, rfl⟩ := List.forall₂_cons_left_iff.1 hrow
      obtain ⟨hroot, hvalid⟩ := h.mem_shapes_choices.1 (List.mem_map_of_mem (f := Tree.shape) htree)
      obtain ⟨hroots, hvalids⟩ := ih.1 ⟨rest, hrest, rfl⟩
      refine ⟨?_, List.forall_mem_cons.2 ⟨hvalid, hvalids⟩⟩
      rw [List.map_cons, List.map_cons, hroot, hroots]
    · rintro ⟨hroots, hvalids⟩
      cases shapes with
      | nil => cases hroots
      | cons shape shapes =>
        obtain ⟨hroot, hroots'⟩ := List.cons.inj hroots
        obtain ⟨hvalid, hvalids'⟩ := List.forall_mem_cons.1 hvalids
        obtain ⟨tree, htree, rfl⟩ := List.mem_map.1 (h.mem_shapes_choices.2 ⟨hroot, hvalid⟩)
        obtain ⟨rest, hrest, rfl⟩ := ih.2 ⟨hroots', hvalids'⟩
        exact ⟨tree :: rest, .cons htree hrest, rfl⟩

/-- A node above a row for a rule is a derivation tree. -/
lemma isDerivation_of_mem_rows (h : Exact g e) {rule : Rule} (hrule : rule ∈ g.rules)
    {row : List Tree} (hrow : row ∈ e.rows rule) :
    g.IsDerivation rule.lhs (.node rule.lhs (row.map Tree.shape)) := by
  obtain ⟨rhs, hrhs, hrow⟩ := List.mem_flatMap.1 hrow
  obtain ⟨hroots, hvalids⟩ := h.mem_shapes_products.1 ⟨row, hrow, rfl⟩
  have hproduction : ⟨rule.lhs, (row.map Tree.shape).map Shape.root⟩ ∈ g.productions := by
    rw [hroots]
    exact Grammar.mem_productions.2 ⟨rule, hrule, rfl, hrhs⟩
  exact ⟨.node rule.lhs _ hproduction fun shape hshape => (hvalids shape hshape).1, _, rfl⟩

lemma grown_of_mem_rows (h : Exact g e) {rule : Rule} {row : List Tree}
    (hrow : row ∈ e.rows rule) : ∀ tree ∈ row, g.Grows tree := by
  obtain ⟨rhs, _, hrow⟩ := List.mem_flatMap.1 hrow
  exact h.grown_of_mem_products hrow

/-- The language made of a rule holds the derivation trees one level higher. -/
lemma mem_shapes_of_deepens (h : Exact g e) {rule : Rule} (hrule : rule ∈ g.rules)
    {language : Language} (hdeepens : e.Deepens rule language) {shape : Shape} :
    shape ∈ language.trees.map Tree.shape ↔
      g.IsDerivation language.symbol shape ∧ shape.height ≤ e.depth + 1 + 1 := by
  obtain ⟨hsymbol, trees, htrees, hlanguage⟩ := hdeepens
  rw [hlanguage, mem_shapes_dedup, hsymbol]
  constructor
  · intro hshape
    obtain ⟨tree, htree, rfl⟩ := List.mem_map.1 hshape
    obtain ⟨row, hrow, hnode⟩ := exists_of_mem_mapM htrees tree htree
    rw [Tree.shape_of_node hnode]
    refine ⟨h.isDerivation_of_mem_rows hrule hrow, ?_⟩
    obtain ⟨rhs, _, hrow⟩ := List.mem_flatMap.1 hrow
    obtain ⟨_, hvalids⟩ := h.mem_shapes_products.1 ⟨row, hrow, rfl⟩
    rw [Shape.height_node_le_iff]
    exact ⟨by omega, fun shape hshape => (hvalids shape hshape).2⟩
  · rintro ⟨⟨hvalid, children, rfl⟩, hheight⟩
    obtain ⟨other, hother, hlhs, hrhs⟩ := Grammar.mem_productions.1 hvalid.production_mem
    -- the production belongs to this very rule, and the children were found one step earlier
    obtain rfl := Grammar.rule_eq_of_lhs_eq hother hrule hlhs
    have hheights := (Shape.height_node_le_iff.1 hheight).2
    obtain ⟨row, hrow, hshapes⟩ := h.mem_shapes_products.2
      ⟨rfl, fun shape hshape => ⟨hvalid.of_mem hshape, hheights shape hshape⟩⟩
    have hmem : row ∈ e.rows other := List.mem_flatMap.2 ⟨_, hrhs, hrow⟩
    obtain ⟨tree, htree, hnode⟩ := exists_mem_of_mapM htrees row hmem
    exact List.mem_map.2 ⟨tree, htree, by rw [Tree.shape_of_node hnode, hshapes]⟩

lemma grown_of_deepens (h : Exact g e) {rule : Rule} {language : Language}
    (hdeepens : e.Deepens rule language) : ∀ tree ∈ language.trees, g.Grows tree := by
  obtain ⟨_, trees, htrees, hlanguage⟩ := hdeepens
  intro tree htree
  rw [hlanguage] at htree
  obtain ⟨row, hrow, hnode⟩ := exists_of_mem_mapM htrees tree (mem_of_mem_dedup htree)
  exact .node (h.grown_of_mem_rows hrow) hnode

lemma nodup_of_deepens {rule : Rule} {language : Language} (hdeepens : e.Deepens rule language) :
    (language.trees.map Tree.shape).Nodup := by
  obtain ⟨_, trees, _, hlanguage⟩ := hdeepens
  rw [hlanguage]
  exact Tree.pairwise_iff_nodup.1 (dedup trees).distinct

/-- A step, finished or given up, keeps the languages exact. -/
theorem expand (h : Exact g e) {result : Except EnumerationError Unit}
    (hstep : e.expand.outcome = .ok (next, result)) : Exact g next := by
  rcases cases_of_expand hstep with ⟨cost, languages, hbuild, rfl, _⟩ | ⟨cost, _, rfl, _⟩
  · have hrules := deepens_of_buildRules hbuild
    rw [h.grammar] at hrules
    have hmade : ∀ language ∈ languages, ∃ rule ∈ g.rules, e.Deepens rule language :=
      fun language hlanguage => exists_left_of_forall₂ hrules language hlanguage
    constructor
    · exact h.grammar
    · have hsymbols : List.Forall₂ Eq (languages.map Language.symbol) (g.rules.map Rule.lhs) := by
        rw [List.forall₂_map_left_iff, List.forall₂_map_right_iff]
        exact (hrules.imp fun _ _ hdeepens => hdeepens.symbol).flip
      rwa [List.forall₂_eq_eq_eq] at hsymbols
    · intro language hlanguage
      obtain ⟨rule, _, hdeepens⟩ := hmade language hlanguage
      exact nodup_of_deepens hdeepens
    · intro language hlanguage
      obtain ⟨rule, _, hdeepens⟩ := hmade language hlanguage
      exact h.grown_of_deepens hdeepens
    · intro language hlanguage shape
      obtain ⟨rule, hrule, hdeepens⟩ := hmade language hlanguage
      exact h.mem_shapes_of_deepens hrule hdeepens
  · exact h.of_cost cost

lemma derivations_eq (h : Exact g e) {language : Language} (hlanguage : language ∈ e.languages) :
    e.derivations language.symbol = language.trees := by
  have hsymbol : language.symbol ∈ g.nonterminals := by
    rw [← h.symbols]
    exact List.mem_map_of_mem hlanguage
  obtain ⟨other, hother, hsame, htrees⟩ := h.exists_language hsymbol
  have hnodup : (e.languages.map Language.symbol).Nodup := h.symbols ▸ g.distinct
  have hequal : other = language := List.inj_on_of_nodup_map hnodup hother hlanguage hsame
  rw [derivations, htrees, hequal, Option.getD_some]

lemma nodup_derivations (h : Exact g e) (hsymbol : symbol ∈ g.nonterminals) :
    ((e.derivations symbol).map Tree.shape).Nodup := by
  obtain ⟨language, hlanguage, rfl, _⟩ := h.exists_language hsymbol
  rw [h.derivations_eq hlanguage]
  exact h.distinct language hlanguage

lemma derivations_of_terminal (h : Exact g e) (hsymbol : symbol ∉ g.nonterminals) :
    e.derivations symbol = [] := by
  rw [derivations, h.trees?_of_terminal hsymbol, Option.getD_none]

lemma mem_shapes_derivations (h : Exact g e) (hsymbol : symbol ∈ g.nonterminals)
    {shape : Shape} : shape ∈ (e.derivations symbol).map Tree.shape ↔
      g.IsDerivation symbol shape ∧ shape.height ≤ e.depth + 1 := by
  obtain ⟨language, hlanguage, rfl, _⟩ := h.exists_language hsymbol
  rw [h.derivations_eq hlanguage]
  exact h.exact language hlanguage shape

lemma grows_of_mem_derivations (h : Exact g e) {tree : Tree}
    (htree : tree ∈ e.derivations symbol) : g.Grows tree := by
  by_cases hsymbol : symbol ∈ g.nonterminals
  · obtain ⟨language, hlanguage, rfl, _⟩ := h.exists_language hsymbol
    rw [h.derivations_eq hlanguage] at htree
    exact h.grown language hlanguage tree htree
  · rw [h.derivations_of_terminal hsymbol] at htree
    cases htree

end Exact

theorem Reachable.exact (h : Reachable g limit e) : Exact g e :=
  h.invariant (Exact.start g limit) fun hexact hstep => hexact.expand hstep

/-- In every state the trees of a nonterminal are all its derivation trees of height at most one
more than the depth, and no two of them are equal. Each is built by the program, knows its height,
and is there once. -/
theorem derivations_of_reachable (h : Reachable g limit e) {symbol : Symbol}
    (hsymbol : symbol ∈ g.nonterminals) :
    (∀ shape, shape ∈ (e.derivations symbol).map Tree.shape ↔
        g.IsDerivation symbol shape ∧ shape.height ≤ e.depth + 1) ∧
      ((e.derivations symbol).map Tree.shape).Nodup ∧
      (∀ tree ∈ e.derivations symbol,
        tree.Built ∧ g.IsDerivation symbol tree.shape ∧ tree.height = tree.shape.height ∧
          tree.height ≤ e.depth + 1) ∧
      ∀ tree : Tree, tree.Built → g.IsDerivation symbol tree.shape → tree.height ≤ e.depth + 1 →
        (e.derivations symbol).count tree = 1 := by
  have hexact := h.exact
  have hshapes : ∀ shape, shape ∈ (e.derivations symbol).map Tree.shape ↔
      g.IsDerivation symbol shape ∧ shape.height ≤ e.depth + 1 :=
    fun _ => hexact.mem_shapes_derivations hsymbol
  have hnodup := hexact.nodup_derivations hsymbol
  refine ⟨hshapes, hnodup, fun tree htree => ?_, fun tree hbuilt hderivation hheight => ?_⟩
  · have hgrows := hexact.grows_of_mem_derivations htree
    obtain ⟨hderivation, hheight⟩ := (hshapes tree.shape).1 (List.mem_map_of_mem htree)
    exact ⟨hgrows.built, hderivation, hgrows.height_eq, hgrows.height_eq ▸ hheight⟩
  · have hheight' : tree.shape.height ≤ e.depth + 1 := hbuilt.describes.height ▸ hheight
    exact Tree.count_eq_one hnodup ((hshapes tree.shape).2 ⟨hderivation, hheight'⟩)

/-- Words of balanced brackets, with two productions that are the same: `S → S S | ( S ) | ε | ε`. -/
def brackets : Grammar := ({} : Grammar).addAlternatives "S" "SS|(S)||"

/-- The tree `S(( S() ))`. -/
def bracketsTree : Tree :=
  .nonterminal ⟨0⟩ [.terminal ⟨1⟩ "(", .nonterminal ⟨0⟩ [] ⟨2, 1, 0, ""⟩, .terminal ⟨2⟩ ")"]
    ⟨3, 3, 2, "( )"⟩

lemma built_bracketsTree : bracketsTree.Built := by
  have hempty : (Tree.nonterminal ⟨0⟩ [] ⟨2, 1, 0, ""⟩).Built :=
    .node (by simp) (Tree.node_eq_ok_iff.2 ⟨⟨2, 1, 0, ""⟩, by decide, rfl⟩)
  refine .node ?_ (Tree.node_eq_ok_iff.2 ⟨⟨3, 3, 2, "( )"⟩, by decide, rfl⟩)
  simp [hempty, Tree.Built.terminal]

/-- Two steps are finished within a cost of 30 and the third one is given up, twice. -/
theorem derivations_of_givenUp_brackets :
    ∃ e, Reachable brackets 30 e ∧ e.depth = 2 ∧ 30 < e.cost ∧ ⟨0⟩ ∈ brackets.nonterminals ∧
      (∀ shape, shape ∈ (e.derivations ⟨0⟩).map Tree.shape ↔
        brackets.IsDerivation ⟨0⟩ shape ∧ shape.height ≤ 3) ∧
      ((e.derivations ⟨0⟩).map Tree.shape).Nodup ∧
      (∀ tree ∈ e.derivations ⟨0⟩,
        tree.Built ∧ brackets.IsDerivation ⟨0⟩ tree.shape ∧ tree.height = tree.shape.height ∧
          tree.height ≤ 3) ∧
      (e.derivations ⟨0⟩).count bracketsTree = 1 := by
  have hrun : ((start brackets 30).run 9 >>= fun ended => ended.2.expand).outcome.map
      (fun step => (step.1.depth, decide (30 < step.1.cost))) = .ok (2, true) := by cbv
  obtain ⟨⟨e, result⟩, hresult, hview⟩ := map_eq_ok_iff.1 hrun
  obtain ⟨hdepth, hcost⟩ := Prod.mk.inj hview
  rw [Logged.outcome_bind] at hresult
  obtain ⟨⟨enumeration, last⟩, hlast, hexpand⟩ := bind_eq_ok_iff.1 hresult
  have hreachable : Reachable brackets 30 e := .expand (.run .start hlast) hexpand
  have hnonterminal : (⟨0⟩ : Symbol) ∈ brackets.nonterminals := by decide
  have hderivations := derivations_of_reachable hreachable hnonterminal
  rw [hdepth] at hderivations
  obtain ⟨hshapes, hnodup, htrees, hcount⟩ := hderivations
  exact ⟨e, hreachable, hdepth, of_decide_eq_true hcost, hnonterminal, hshapes, hnodup, htrees,
    hcount bracketsTree built_bracketsTree (by decide) (by decide)⟩

end Expansion

end ContextFree
