import ContextFree.Grammar.Text
import ContextFree.Proofs.Checking
import ContextFree.Proofs.Reporting
import Mathlib

/-!
# What the items of a chart stand for

An item that keeps its whole right-hand side and counts its pending symbols could say anything
about the trees it has matched. The items of a chart agree with them: an item has a tree for each
symbol behind its dot, and these trees derive the tokens from its position to its `finish`. So
its text is that of its production, although the part behind the dot is read off the trees.

This is true after every turn of the loop that fills the chart, whatever was cut, and of every
item that is reported, also at a position that cannot be built.
-/
namespace ContextFree

open Checked Position

variable {g : Grammar} {limit position base : ℕ} {start : Symbol} {tokens : List (Option Symbol)}

/-- The text of a production with a dot after some of its symbols. -/
def Production.dottedText (g : Grammar) (production : Production) (dot finish : ℕ) : String :=
  let words (symbols : List Symbol) : String :=
    String.join (symbols.map fun symbol => " " ++ g.nameOr Item.unnamed symbol)
  "(" ++ g.nameOr Item.unnamed production.lhs ++ " ->" ++ words (production.rhs.take dot) ++ " ." ++
    words (production.rhs.drop dot) ++ s!", {finish})"

/-- What is true of an item with its whole right-hand side at a position of a chart. -/
structure Counted.Fits (g : Grammar) (start : Symbol) (tokens : List (Option Symbol))
    (position : ℕ) (item : Counted) : Prop where
  position_le : position ≤ item.finish
  finish_le : item.finish ≤ tokens.length
  production : ⟨item.lhs, item.rhs⟩ ∈ g.productions ∨ item.lhs = g.root ∧ item.rhs = [start]
  pending_le : item.pending ≤ item.rhs.length
  length_parsed : item.parsed.length = item.rhs.length - item.pending
  roots : item.parsed.map Tree.symbol = item.rhs.drop item.pending
  trees : ∀ tree ∈ item.parsed,
    (∃ symbol, symbol ∉ g.nonterminals ∧ tree = g.leaf symbol) ∨
      g.Grows tree ∧ g.IsDerivation tree.symbol tree.shape
  yield : (item.parsed.flatMap fun tree => tree.shape.yield).map some =
    between tokens position item.finish

/-- The roots of its trees are the symbols behind the dot, so an item shows its production. -/
lemma Counted.Fits.text_eq {item : Counted} (h : item.Fits g start tokens position) :
    item.text g =
      .ok (Production.dottedText g ⟨item.lhs, item.rhs⟩ item.pending item.finish) := by
  rw [Counted.text, Counted.unmatched, if_pos h.pending_le, ok_bind, Item.text, h.roots,
    List.reverse_reverse]
  rfl

namespace Item

/-- A tree that is grown from the grammar and valid is a leaf of a terminal or a derivation. -/
lemma leaf_or_isDerivation {tree : Tree} (hgrown : g.Grows tree) (hvalid : g.Valid tree.shape) :
    (∃ symbol, symbol ∉ g.nonterminals ∧ tree = g.leaf symbol) ∨
      g.Grows tree ∧ g.IsDerivation tree.symbol tree.shape := by
  cases hgrown with
  | leaf symbol =>
    left
    cases hvalid with
    | leaf _ hterminal => exact ⟨symbol, hterminal, rfl⟩
  | @node symbol children _ hchildren hnode =>
    right
    have hshape := Tree.shape_of_node hnode
    have hsymbol : tree.symbol = symbol := by rw [← Tree.root_shape, hshape, Shape.root_node]
    exact ⟨.node hchildren hnode, hvalid, _, hsymbol ▸ hshape⟩

variable {item : Item}

lemma Fits.counted (h : item.Fits g start tokens position) :
    item.counted.Fits g start tokens position := by
  obtain ⟨hpending, hroots⟩ := exists_counted_iff.1 ⟨item, rfl⟩
  refine ⟨h.position_le, h.finish_le, ?_, hpending, ?_, hroots, ?_, h.yield⟩
  · exact h.production.imp_right fun hroot => ⟨hroot.1, hroot.2.1⟩
  · simpa using congrArg List.length hroots
  · exact fun tree htree => leaf_or_isDerivation (h.grown tree htree) (h.valid tree htree)

/-- The text of an item is that of its production, with the dot where its trees begin. -/
lemma text_eq_dottedText (g : Grammar) (item : Item) :
    item.text g = Production.dottedText g ⟨item.lhs, item.rhs⟩ item.pending.length item.finish := by
  have hlength : item.pending.length = item.pending.reverse.length := List.length_reverse.symm
  rw [Item.text, Production.dottedText, Item.rhs, hlength, List.take_left, List.drop_left]

end Item

/-! ### The chart while it is filled -/

namespace Position

/-- After every turn the chart holds the positions from some one on, each built over its seeds. -/
lemma exists_charts_of_fill {row : List (List Counted)} {cut : Bool}
    (hbase : base ≤ tokens.length + 1)
    (h : ((List.range (tokens.length + 1)).drop base).reverse.foldlM
      (fill g limit start tokens) (List.replicate (tokens.length + 1) [], false) =
        .ok (row, cut)) :
    ∃ later, Charts g limit start tokens base later ∧ row = filling base later := by
  induction hturns : tokens.length + 1 - base generalizing base row cut with
  | zero =>
    obtain rfl : base = tokens.length + 1 := by omega
    rw [List.drop_of_length_le (by simp)] at h
    obtain ⟨rfl, _⟩ := Prod.mk.inj (Except.ok.inj h)
    exact ⟨[], .nil, (List.append_nil _).symm⟩
  | succ turns ih =>
    have hlt : base < (List.range (tokens.length + 1)).length := by
      rw [List.length_range]
      omega
    rw [List.drop_eq_getElem_cons hlt, List.getElem_range, List.reverse_cons,
      List.foldlM_append, bind_eq_ok_iff] at h
    obtain ⟨⟨before, cut'⟩, hbefore, hturn⟩ := h
    obtain ⟨later, hcharts, rfl⟩ := ih (by omega) hbefore (by omega)
    have hle : base ≤ tokens.length := by omega
    simp only [List.foldlM_cons, List.foldlM_nil, bind_pure] at hturn
    rw [fill_counted hle hcharts] at hturn
    cases hbuilt : (build g limit later base
        (g.seeds start base (tokens.drop base) later)).outcome with
    | error fault =>
      rw [hbuilt] at hturn
      cases hturn
    | ok here =>
      rw [hbuilt] at hturn
      obtain ⟨rfl, _⟩ := Prod.mk.inj (Except.ok.inj hturn)
      exact ⟨here :: later, .cons hle hcharts hbuilt, rfl⟩

/-- The sets of a chart have views of the items found so far. -/
lemma exists_item_of_filling {later : List Position} {items : List Counted}
    (hitems : (filling base later)[position]? = some items) {item : Counted}
    (hitem : item ∈ items) :
    base ≤ position ∧ ∃ known ∈ itemsIn later (position - base), known.counted = item := by
  rw [filling] at hitems
  rcases Nat.lt_or_ge position base with hlt | hge
  · rw [List.getElem?_append_left (by simpa using hlt), List.getElem?_replicate,
      if_pos hlt] at hitems
    obtain rfl := Option.some.inj hitems
    cases hitem
  · rw [List.getElem?_append_right (by simpa using hge), List.length_replicate,
      List.getElem?_map] at hitems
    obtain ⟨here, hhere, rfl⟩ := Option.map_eq_some_iff.1 hitems
    obtain ⟨known, hknown, rfl⟩ := List.mem_map.1 hitem
    exact ⟨hge, known, itemsIn_of_getElem? hhere ▸ hknown, rfl⟩

/-! ### The reports -/

/-- Every item that a position reports follows from its seeds, also when it is cut or faults. -/
lemma follows_of_mem_log {later : List Position} {seeds : List Item} {item : Item}
    (h : .added item ∈ (build g limit later position seeds).log) :
    Follows g later position seeds item := by
  cases hclose : close g limit later position .empty #[] (.ofList seeds) with
  | mk items outcome =>
    refine follows_of_close hclose item ?_
    cases outcome with
    | error fault =>
      rw [build_of_fault hclose] at h
      simpa using h
    | ok cut =>
      rw [build_of_close hclose, reports] at h
      cases cut with
      | false => simpa [cutReport] using h
      | true => simpa [cutReport] using h

lemma log_prepend (token : Option Symbol × ℕ) (later : List Position) :
    (prepend g limit token later).log =
      (build g limit later token.2 (scan g token.1 later)).log := by
  rw [prepend]
  cases hbuilt : (build g limit later token.2 (scan g token.1 later)).outcome with
  | error fault => rw [Logged.bind_of_error hbuilt]
  | ok here => rw [Logged.bind_of_ok hbuilt, Logged.log_pure, List.append_nil]

/-- Every item that is reported in front of the last position fits its position. -/
lemma fits_of_mem_log_foldrM {last : Position} {item : Item}
    (hlast : Charts g limit start tokens tokens.length [last]) (hbase : base ≤ tokens.length)
    (h : .added item ∈ (((tokens.drop base).zipIdx base).foldrM (prepend g limit) [last]).log) :
    ∃ position ≤ tokens.length, item.Fits g start tokens position := by
  induction hdistance : tokens.length - base generalizing base with
  | zero =>
    obtain rfl : base = tokens.length := by omega
    rw [List.drop_length] at h
    cases h
  | succ distance ih =>
    have hlt : base < tokens.length := by omega
    have hseeds (later : List Position) :
        g.seeds start base (tokens.drop base) later = scan g tokens[base] later := by
      rw [List.drop_eq_getElem_cons hlt, Grammar.seeds]
    rw [List.drop_eq_getElem_cons hlt, List.zipIdx_cons, List.foldrM_cons] at h
    cases hlater : (((tokens.drop (base + 1)).zipIdx (base + 1)).foldrM
        (prepend g limit) [last]).outcome with
    | error fault =>
      rw [Logged.bind_of_error hlater] at h
      exact ih hlt h (by omega)
    | ok later =>
      rw [Logged.bind_of_ok hlater, List.mem_append, log_prepend] at h
      rcases h with h | h
      · exact ih hlt h (by omega)
      · have hfollows := follows_of_mem_log h
        rw [← hseeds later] at hfollows
        exact ⟨base, hbase, fits_of_follows hbase (charts_of_foldrM hlast hlt hlater) hfollows⟩

end Position

namespace Grammar

/-- Every item that is reported while a chart is built fits a position of the input. -/
lemma fits_of_mem_log {item : Item} (h : .added item ∈ (g.chart limit start tokens).log) :
    ∃ position ≤ tokens.length, item.Fits g start tokens position := by
  have hseeds : g.seeds start tokens.length (tokens.drop tokens.length) [] =
      [g.rootItem start tokens.length] := by
    rw [List.drop_length, Grammar.seeds]
  have hnone : Charts g limit start tokens (tokens.length + 1) [] := .nil
  have hfirst : ∀ item, .added item ∈ (build g limit [] tokens.length
      [g.rootItem start tokens.length]).log → item.Fits g start tokens tokens.length := by
    intro item hitem
    have hfollows := follows_of_mem_log hitem
    rw [← hseeds] at hfollows
    exact fits_of_follows (Nat.le_refl _) hnone hfollows
  rw [Grammar.chart] at h
  cases hlast : (build g limit [] tokens.length [g.rootItem start tokens.length]).outcome with
  | error fault =>
    rw [Logged.bind_of_error hlast] at h
    exact ⟨tokens.length, Nat.le_refl _, hfirst item h⟩
  | ok last =>
    rw [Logged.bind_of_ok hlast, List.mem_append] at h
    rcases h with h | h
    · exact ⟨tokens.length, Nat.le_refl _, hfirst item h⟩
    · exact fits_of_mem_log_foldrM (charts_last hlast) (Nat.zero_le _) h

/-- After every turn of the loop that fills the chart, the items of every set agree with their
matched trees and with the input, and their texts are those of their productions. The same is true
of the chart of the parser, which drops the matched symbols, and of every item that is reported. -/
theorem fits_of_fill (g : Grammar) (limit : ℕ) (start : Symbol) (tokens : List (Option Symbol)) :
    (∀ (turns : ℕ) (chart : List (List Counted)) (cut : Bool),
      ((List.range (tokens.length + 1)).reverse.take turns).foldlM (fill g limit start tokens)
        (List.replicate (tokens.length + 1) [], false) = .ok (chart, cut) →
      chart.length = tokens.length + 1 ∧
      ∀ (position : ℕ) (items : List Counted), chart[position]? = some items → ∀ item ∈ items,
        item.Fits g start tokens position ∧
        item.text g = .ok (Production.dottedText g ⟨item.lhs, item.rhs⟩ item.pending item.finish)) ∧
    (∀ chart, (g.chart limit start tokens).outcome = .ok chart →
      ∀ position, ∀ item ∈ itemsIn chart position, item.counted.Fits g start tokens position) ∧
    ∀ item, .added item ∈ (g.chart limit start tokens).log →
      (∃ position ≤ tokens.length, item.counted.Fits g start tokens position) ∧
      (ChartEvent.added item).message g =
        Production.dottedText g ⟨item.lhs, item.rhs⟩ item.pending.length item.finish := by
  refine ⟨?_, ?_, ?_⟩
  · intro turns chart cut hrun
    rw [List.take_reverse, List.length_range] at hrun
    obtain ⟨later, hcharts, rfl⟩ := exists_charts_of_fill (Nat.sub_le _ _) hrun
    constructor
    · rw [filling, List.length_append, List.length_replicate, List.length_map, hcharts.length_eq]
    · intro position items hitems item hitem
      obtain ⟨hbase, known, hknown, rfl⟩ := exists_item_of_filling hitems hitem
      have hfits := ((kept_fits g start tokens).of_charts hcharts hbase known hknown).counted
      exact ⟨hfits, hfits.text_eq⟩
  · intro chart hchart position item hitem
    exact ((charts_of_chart hchart).fits position item hitem).counted
  · intro item hitem
    obtain ⟨position, hle, hfits⟩ := fits_of_mem_log hitem
    exact ⟨⟨position, hle, hfits.counted⟩, Item.text_eq_dottedText g item⟩

/-- Two letters or none: `S → a a | `. -/
def pairOrNone : Grammar := ({} : Grammar).addAlternatives "S" "aa|"

/-- The sets of a state in numbers: whether something was cut, and for each item at a position its
production, the number of its pending symbols and its `finish`. -/
def numbers (position : ℕ) (state : List (List Counted) × Bool) :
    Bool × Option (List (Symbol × List Symbol × ℕ × ℕ)) :=
  (state.2, state.1[position]?.map (List.map fun item =>
    (item.lhs, item.rhs, item.pending, item.finish)))

lemma exists_first_of_numbers {run : Except Trap (List (List Counted) × Bool)} {cut : Bool}
    {lhs : Symbol} {rhs : List Symbol} {pending finish : ℕ}
    {others : List (Symbol × List Symbol × ℕ × ℕ)}
    (h : run.map (numbers position) = .ok (cut, some ((lhs, rhs, pending, finish) :: others))) :
    ∃ chart item rest, run = .ok (chart, cut) ∧ chart[position]? = some (item :: rest) ∧
      item.lhs = lhs ∧ item.rhs = rhs ∧ item.pending = pending ∧ item.finish = finish := by
  obtain ⟨⟨chart, cut⟩, hchart, hview⟩ := map_eq_ok_iff.1 h
  obtain ⟨rfl, hfirst⟩ := Prod.mk.inj hview
  obtain ⟨items, hitems, hview⟩ := Option.map_eq_some_iff.1 hfirst
  obtain ⟨item, rest, rfl, hitem, -⟩ := List.map_eq_cons_iff.1 hview
  exact ⟨chart, item, rest, hchart, hitems, by simpa using hitem⟩

/-- In front of the only letter an item has matched it and waits for the other one. With a limit of
one the last position is cut in the first turn, and its items are sound as well. -/
theorem fits_of_fill_pairOrNone :
    (∃ chart item rest, ((List.range 2).reverse.take 2).foldlM
        (fill pairOrNone 3 ⟨0⟩ [some ⟨1⟩]) (List.replicate 2 [], false) = .ok (chart, false) ∧
      chart[0]? = some (item :: rest) ∧ item.Fits pairOrNone ⟨0⟩ [some ⟨1⟩] 0 ∧
      item.text pairOrNone = .ok "(S -> a . a, 1)") ∧
    ∃ chart item rest, ((List.range 2).reverse.take 1).foldlM
        (fill pairOrNone 1 ⟨0⟩ [some ⟨1⟩]) (List.replicate 2 [], false) = .ok (chart, true) ∧
      chart[1]? = some (item :: rest) ∧ item.Fits pairOrNone ⟨0⟩ [some ⟨1⟩] 1 ∧
      item.text pairOrNone = .ok "(<root> -> S ., 1)" := by
  have hboth : (((List.range 2).reverse.take 2).foldlM (fill pairOrNone 3 ⟨0⟩ [some ⟨1⟩])
      (List.replicate 2 [], false)).map (numbers 0) =
      .ok (false, some [(⟨0⟩, [⟨1⟩, ⟨1⟩], 1, 1)]) := by cbv
  have hcut : (((List.range 2).reverse.take 1).foldlM (fill pairOrNone 1 ⟨0⟩ [some ⟨1⟩])
      (List.replicate 2 [], false)).map (numbers 1) =
      .ok (true, some [(⟨2⟩, [⟨0⟩], 1, 1), (⟨0⟩, [⟨1⟩, ⟨1⟩], 2, 1)]) := by cbv
  constructor
  · obtain ⟨chart, item, rest, hchart, hitems, hlhs, hrhs, hpending, hfinish⟩ :=
      exists_first_of_numbers hboth
    obtain ⟨hfits, htext⟩ := ((fits_of_fill pairOrNone 3 ⟨0⟩ [some ⟨1⟩]).1 2 chart false
      hchart).2 0 _ hitems item List.mem_cons_self
    rw [hlhs, hrhs, hpending, hfinish] at htext
    exact ⟨chart, item, rest, hchart, hitems, hfits, htext.trans (by decide +kernel)⟩
  · obtain ⟨chart, item, rest, hchart, hitems, hlhs, hrhs, hpending, hfinish⟩ :=
      exists_first_of_numbers hcut
    obtain ⟨hfits, htext⟩ := ((fits_of_fill pairOrNone 1 ⟨0⟩ [some ⟨1⟩]).1 1 chart true
      hchart).2 1 _ hitems item List.mem_cons_self
    rw [hlhs, hrhs, hpending, hfinish] at htext
    exact ⟨chart, item, rest, hchart, hitems, hfits, htext.trans (by decide +kernel)⟩

end Grammar

end ContextFree
