import ContextFree.Grammar.Text
import ContextFree.Proofs.Heights
import Mathlib

/-!
# Unbounded ambiguity

An analysis reports unbounded ambiguity when a cyclic nonterminal is reachable and realizable.
This is so exactly when a reachable nonterminal has infinitely many derivation trees of some
word. The grammar itself has a word with infinitely many derivation trees exactly when such a
nonterminal occurs in a derivation tree of the start symbol, which asks for more: a sentential
form that contains the nonterminal need not derive any word.

So the report misses no ambiguity, and it is wrong exactly when every nonterminal it is about
stands beside symbols that derive nothing.
-/
namespace ContextFree

open Relation

namespace Grammar

variable {g : Grammar} {symbol : Symbol}

/-- Some word has infinitely many derivation trees of the start symbol. -/
def UnboundedlyAmbiguous (g : Grammar) : Prop :=
  ∃ start word, g.start? = some start ∧ g.InfinitelyAmbiguous start word

/-- A nonterminal occurs when a derivation tree of the start symbol has a derivation tree of the
nonterminal in it. -/
def Occurs (g : Grammar) (symbol : Symbol) : Prop :=
  ∃ start shape, g.start? = some start ∧ g.IsDerivation start shape ∧
    ∃ part : Shape, part.Within shape ∧ g.IsDerivation symbol part

lemma NamesAll.namesLeft (h : g.NamesAll) : g.NamesLeft := by
  intro symbol hsymbol
  obtain ⟨rhs, hproduction⟩ := mem_nonterminals_iff.1 hsymbol
  exact (h _ hproduction).1

lemma NamesAll.lt_symbolCount (h : g.NamesAll) {shape : Shape} (hvalid : g.Valid shape)
    (hroot : shape.root.id < g.symbolCount) : ∀ leaf ∈ shape.yield, leaf.id < g.symbolCount := by
  induction hvalid with
  | leaf symbol => simpa using hroot
  | node symbol children production _ ih =>
    intro leaf hleaf
    rw [Shape.yield_node, List.mem_flatMap] at hleaf
    obtain ⟨child, hchild, hleaf⟩ := hleaf
    exact ih child hchild ((h _ production).2 _ (List.mem_map_of_mem hchild)) leaf hleaf

lemma IsDerivation.of_within {shape part : Shape} (h : g.IsDerivation symbol shape)
    (hpart : part.Within shape) (hroot : part.root ∈ g.nonterminals) :
    ReflTransGen g.Mentions symbol part.root ∧ g.IsDerivation part.root part := by
  obtain ⟨frames, hspine, _, hvalid⟩ := exists_spine_of_within hpart h.1
  rw [root_of_isDerivation h] at hspine
  exact ⟨hspine.mentions hroot, hvalid.isDerivation hroot⟩

lemma InfinitelyAmbiguous.exists_isDerivation {word : List Symbol}
    (h : g.InfinitelyAmbiguous symbol word) : ∃ shape, g.IsDerivation symbol shape := by
  obtain ⟨shape, hshape, _⟩ := h.nonempty
  exact ⟨shape, hshape⟩

/-- What occurs in a derivation tree of the start symbol is in one of its sentential forms. -/
lemma Occurs.reached (h : g.Occurs symbol) : g.Reached symbol := by
  obtain ⟨start, shape, hstart, hshape, part, hwithin, hpart⟩ := h
  have hsymbol := hpart.mem_nonterminals
  have hroot := root_of_isDerivation hpart
  have hmentions := (hshape.of_within hwithin (hroot.symm ▸ hsymbol)).1
  exact (reached_iff hsymbol).2 ⟨start, hstart, hroot ▸ hmentions⟩

/-- The ambiguity of a nonterminal spreads to every derivation tree in which it occurs. -/
theorem unboundedlyAmbiguous_iff :
    g.UnboundedlyAmbiguous ↔ ∃ symbol word, g.Occurs symbol ∧ g.InfinitelyAmbiguous symbol word := by
  constructor
  · rintro ⟨start, word, hstart, hinfinite⟩
    obtain ⟨shape, hshape⟩ := hinfinite.exists_isDerivation
    exact ⟨start, word, ⟨start, shape, hstart, hshape, shape, .self, hshape⟩, hinfinite⟩
  · rintro ⟨symbol, word, ⟨start, shape, hstart, hshape, part, hwithin, hpart⟩, hinfinite⟩
    obtain ⟨frames, hspine, _, _⟩ := exists_spine_of_within hwithin hshape.1
    rw [root_of_isDerivation hshape, root_of_isDerivation hpart] at hspine
    obtain ⟨word', hword'⟩ := hspine.infinitelyAmbiguous hinfinite
    exact ⟨start, word', hstart, hword'⟩

/-- A reachable nonterminal with infinitely many derivation trees of one word leads to a cyclic
one, and a cyclic one with a derivation tree is such a nonterminal. -/
lemma exists_cycle_iff :
    (∃ symbol, TransGen g.Passes symbol symbol ∧ g.Reached symbol ∧
        ∃ shape, g.IsDerivation symbol shape) ↔
      ∃ symbol word, g.Reached symbol ∧ g.InfinitelyAmbiguous symbol word := by
  constructor
  · rintro ⟨symbol, hcycle, hreached, shape, hshape⟩
    exact ⟨symbol, shape.yield, hreached, infinitelyAmbiguous_of_cycle hcycle hshape⟩
  · rintro ⟨symbol, word, hreached, hinfinite⟩
    obtain ⟨shape, hshape, part, hwithin, hcycle⟩ := exists_cycle_of_infinitelyAmbiguous hinfinite
    have hroot := left_mem_nonterminals_of_transGen hcycle
    obtain ⟨hmentions, hpart⟩ := hshape.of_within hwithin hroot
    obtain ⟨start, hstart, hlead⟩ := (reached_iff hshape.mem_nonterminals).1 hreached
    exact ⟨part.root, hcycle, (reached_iff hroot).2 ⟨start, hstart, hlead.trans hmentions⟩, part,
      hpart⟩

/-- When every symbol has a name, the unrealizable nonterminals are those without derivation
trees. -/
lemma Explains.unrealizable_iff {a : Analysis} (h : g.Explains a) (hnames : g.NamesAll)
    (hsymbol : symbol ∈ g.nonterminals) :
    a.unrealizable.contains symbol = true ↔ ¬ ∃ shape, g.IsDerivation symbol shape := by
  rw [h.unrealizable.contains]
  constructor
  · intro ⟨_, hbeyond⟩ ⟨shape, hshape⟩
    obtain ⟨leaf, hleaf, hge⟩ := hbeyond shape hshape
    have hroot : shape.root.id < g.symbolCount := by
      rw [root_of_isDerivation hshape]
      exact hnames.namesLeft symbol hsymbol
    have hlt := hnames.lt_symbolCount hshape.1 hroot leaf hleaf
    omega
  · intro hnone
    exact ⟨hsymbol, fun shape hshape => absurd ⟨shape, hshape⟩ hnone⟩

/-- When every symbol has a name, the flag of an analysis speaks of cyclic nonterminals that are
reached and have a derivation tree. -/
lemma Explains.unboundedAmbiguity_iff {a : Analysis} (h : g.Explains a) (hnames : g.NamesAll) :
    a.unboundedAmbiguity = true ↔
      ∃ symbol, TransGen g.Passes symbol symbol ∧ g.Reached symbol ∧
        ∃ shape, g.IsDerivation symbol shape := by
  simp only [Analysis.unboundedAmbiguity, List.any_eq_true, SymbolSet.mem_members,
    Bool.and_eq_true, Bool.not_eq_true', h.cyclic.contains, h.unreachable.contains_eq_false,
    h.unrealizable.contains_eq_false]
  apply exists_congr
  intro symbol
  apply and_congr_right
  intro hcycle
  have hsymbol := left_mem_nonterminals_of_transGen hcycle
  apply and_congr
  · rw [not_and, not_not]
    exact ⟨fun himp => himp hsymbol, fun hreached _ => hreached⟩
  · rw [← h.unrealizable.contains, h.unrealizable_iff hnames hsymbol, not_not]

/-- A cyclic nonterminal that occurs is all it takes for a word with infinitely many derivation
trees. -/
theorem unboundedlyAmbiguous_iff_exists_cycle :
    g.UnboundedlyAmbiguous ↔ ∃ symbol, TransGen g.Passes symbol symbol ∧ g.Occurs symbol := by
  constructor
  · rintro ⟨start, word, hstart, hinfinite⟩
    obtain ⟨shape, hshape, part, hwithin, hcycle⟩ := exists_cycle_of_infinitelyAmbiguous hinfinite
    have hroot := left_mem_nonterminals_of_transGen hcycle
    have hpart := (hshape.of_within hwithin hroot).2
    exact ⟨part.root, hcycle, start, shape, hstart, hshape, part, hwithin, hpart⟩
  · rintro ⟨symbol, hcycle, start, shape, hstart, hshape, part, hwithin, hpart⟩
    have hinfinite := infinitelyAmbiguous_of_cycle hcycle hpart
    exact unboundedlyAmbiguous_iff.2
      ⟨symbol, _, ⟨start, shape, hstart, hshape, part, hwithin, hpart⟩, hinfinite⟩

/-- The flag of an analysis is set exactly when a reachable nonterminal has infinitely many
derivation trees of one word. A word of the start symbol has infinitely many exactly when a
cyclic nonterminal occurs in a derivation tree of the start symbol. So the flag is never missing,
and it is right exactly when it is not set without such a nonterminal. -/
theorem unboundedAmbiguity_of_namesAll (hnames : g.NamesAll) :
    ∃ a, g.analysis = .ok a ∧
      (a.unboundedAmbiguity = true ↔
        ∃ symbol word, g.Reached symbol ∧ g.InfinitelyAmbiguous symbol word) ∧
      (g.UnboundedlyAmbiguous ↔ ∃ symbol, a.cyclic.contains symbol = true ∧ g.Occurs symbol) ∧
      (g.UnboundedlyAmbiguous → a.unboundedAmbiguity = true) ∧
      ((a.unboundedAmbiguity = true ↔ g.UnboundedlyAmbiguous) ↔
        (a.unboundedAmbiguity = true →
          ∃ symbol, a.cyclic.contains symbol = true ∧ g.Occurs symbol)) := by
  obtain ⟨a, hanalysis, hexplains⟩ := exists_analysis hnames.namesLeft
  have hflag := (hexplains.unboundedAmbiguity_iff hnames).trans exists_cycle_iff
  have hcycle : g.UnboundedlyAmbiguous ↔
      ∃ symbol, a.cyclic.contains symbol = true ∧ g.Occurs symbol := by
    simp only [hexplains.cyclic.contains]
    exact unboundedlyAmbiguous_iff_exists_cycle
  have hnever : g.UnboundedlyAmbiguous → a.unboundedAmbiguity = true := by
    intro hambiguous
    obtain ⟨symbol, word, hoccurs, hinfinite⟩ := unboundedlyAmbiguous_iff.1 hambiguous
    exact hflag.2 ⟨symbol, word, hoccurs.reached, hinfinite⟩
  refine ⟨a, hanalysis, hflag, hcycle, hnever, ?_⟩
  rw [← hcycle]
  constructor
  · intro hright
    exact hright.1
  · intro hfound
    exact ⟨hfound, hnever⟩

/-- A grammar of one word, `S → C U | a`, `C → C | c` and `U → U`. The nonterminal `C` is cyclic,
but it stands beside `U`, which derives nothing. -/
def barrenCycle : Grammar :=
  ((({} : Grammar).addAlternatives "S" "CU|a").addAlternatives "C" "C|c").addAlternatives "U" "U"

lemma productions_barrenCycle : barrenCycle.productions =
    [⟨⟨0⟩, [⟨1⟩, ⟨2⟩]⟩, ⟨⟨0⟩, [⟨3⟩]⟩, ⟨⟨1⟩, [⟨1⟩]⟩, ⟨⟨1⟩, [⟨4⟩]⟩, ⟨⟨2⟩, [⟨2⟩]⟩] := by decide

lemma root_ne_of_valid_barrenCycle {shape : Shape} (h : barrenCycle.Valid shape) :
    shape.root ≠ ⟨2⟩ := by
  induction h with
  | leaf symbol hterminal =>
    rintro rfl
    exact hterminal (by decide)
  | node symbol children hproduction _ ih =>
    rintro rfl
    have hroots : children.map Shape.root = [⟨2⟩] := by
      simpa [productions_barrenCycle] using hproduction
    obtain ⟨child, hchild, hroot⟩ := List.mem_map.1 (hroots ▸ List.mem_singleton_self _)
    exact ih child hchild hroot

/-- No derivation tree of `S` has `U` in it, so there is a single one. -/
lemma not_unboundedlyAmbiguous_barrenCycle : ¬ barrenCycle.UnboundedlyAmbiguous := by
  rintro ⟨start, word, hstart, hinfinite⟩
  have hzero : (⟨0⟩ : Symbol) = start := by
    have hfirst : barrenCycle.start? = some ⟨0⟩ := by decide
    exact Option.some.inj (hfirst.symm.trans hstart)
  subst hzero
  apply hinfinite
  apply (Set.finite_singleton (Shape.node ⟨0⟩ [.leaf ⟨3⟩])).subset
  rintro _ ⟨⟨hvalid, children, rfl⟩, _⟩
  have hroots : children.map Shape.root = [⟨1⟩, ⟨2⟩] ∨ children.map Shape.root = [⟨3⟩] := by
    simpa [productions_barrenCycle] using hvalid.production_mem
  rcases hroots with hbarren | hword
  · have hmem : (⟨2⟩ : Symbol) ∈ children.map Shape.root := by simp [hbarren]
    obtain ⟨child, hchild, hroot⟩ := List.mem_map.1 hmem
    exact absurd hroot (root_ne_of_valid_barrenCycle (hvalid.of_mem hchild))
  · obtain ⟨child, rfl, hroot⟩ := List.map_eq_singleton_iff.1 hword
    have hchild := hvalid.of_mem (List.mem_singleton_self child)
    cases hchild with
    | leaf symbol =>
      rw [Shape.root_leaf] at hroot
      rw [hroot]
      rfl
    | node symbol children hproduction =>
      have hterminal : (⟨3⟩ : Symbol) ∉ barrenCycle.nonterminals := by decide
      rw [Shape.root_node] at hroot
      exact absurd (lhs_mem_nonterminals (hroot ▸ hproduction)) hterminal

/-- The flag is set although no word has infinitely many derivation trees, and no cyclic
nonterminal occurs in a derivation tree of the start symbol. -/
theorem unboundedAmbiguity_barrenCycle :
    barrenCycle.NamesAll ∧ ∃ a, barrenCycle.analysis = .ok a ∧ a.unboundedAmbiguity = true ∧
      ¬ barrenCycle.UnboundedlyAmbiguous ∧
      ¬ ∃ symbol, a.cyclic.contains symbol = true ∧ barrenCycle.Occurs symbol := by
  have hnames : barrenCycle.NamesAll := by
    rw [NamesAll, productions_barrenCycle]
    decide
  have hrun : barrenCycle.analysis.map Analysis.unboundedAmbiguity = .ok true := by cbv
  obtain ⟨a, hanalysis, _, hcycle, _⟩ := unboundedAmbiguity_of_namesAll hnames
  rw [hanalysis] at hrun
  have hnot := not_unboundedlyAmbiguous_barrenCycle
  exact ⟨hnames, a, hanalysis, Except.ok.inj hrun, hnot, fun hfound => hnot (hcycle.2 hfound)⟩

end Grammar

end ContextFree
