import ContextFree.Proofs.Ambiguity
import ContextFree.Proofs.Drawing
import ContextFree.Proofs.Rewriting
import Mathlib

/-!
# What an analysis decides

An analysis marks symbols without building a tree or rewriting a row. What a mark means is said
below by derivations alone, for every grammar whose left-hand sides have names. A symbol is
nullable exactly when it has a derivation tree without leaves, that is, when it rewrites to the
empty row. A nonterminal is unrealizable when each of its derivation trees has a leaf without a
name, and unreachable when no sentential form of the start symbol contains it.
-/
namespace ContextFree.Grammar

open Relation

variable {g : Grammar}

/-- A symbol vanishes exactly when it rewrites to the empty row. -/
lemma vanishes_iff_rewrites_nil {symbol : Symbol} :
    g.Vanishes symbol ↔ ReflTransGen g.Rewrites [symbol] [] := by
  rw [rewrites_nil_iff, List.forall_mem_singleton]

/-- The nullable set of an analysis has exactly the nonterminals with a derivation tree without
leaves. These are the symbols that rewrite to the empty row. -/
theorem nullable_iff_derives_empty (hnames : g.NamesLeft) :
    ∃ a, g.analysis = .ok a ∧ ∀ symbol,
      (a.nullable.contains symbol = true ↔ symbol ∈ g.nonterminals ∧
        ∃ shape, g.IsDerivation symbol shape ∧ shape.yield = []) ∧
      (a.nullable.contains symbol = true ↔ ReflTransGen g.Rewrites [symbol] []) := by
  obtain ⟨a, hanalysis, hexplains⟩ := exists_analysis hnames
  refine ⟨a, hanalysis, fun symbol => ?_⟩
  rw [hexplains.nullable.contains, ← vanishes_iff_rewrites_nil]
  refine ⟨⟨fun h => ⟨h.mem_nonterminals, h⟩, And.right⟩, Iff.rfl⟩

/-- Two nonterminals that vanish by a third one, one that never ends, and two symbols without a
name: `S → A A | c`, `A → B | a`, `B → S c | | ?` and `U → U | ?`. -/
def silentPair : Grammar :=
  ((((({} : Grammar).addAlternatives "S" "AA|c").addAlternatives "A" "B|a").addAlternatives
    "B" "Sc|").addAlternatives "U" "U").addRule ⟨⟨5⟩, [⟨90⟩]⟩ |>.addRule ⟨⟨3⟩, [⟨91⟩]⟩

/-- `S`, `A` and `B` are nullable, `U` is not. -/
theorem nullable_iff_silentPair :
    silentPair.NamesLeft ∧ ∃ a, silentPair.analysis = .ok a ∧
      a.nullable.members = [⟨0⟩, ⟨1⟩, ⟨3⟩] ∧
      (∃ shape, silentPair.IsDerivation ⟨0⟩ shape ∧ shape.yield = []) ∧
      ReflTransGen silentPair.Rewrites [⟨0⟩] [] ∧ ¬ ReflTransGen silentPair.Rewrites [⟨5⟩] [] := by
  have hnames : silentPair.NamesLeft := by
    rw [NamesLeft]
    decide
  have hrun : silentPair.analysis.map (fun a => a.nullable.members) = .ok [⟨0⟩, ⟨1⟩, ⟨3⟩] := by cbv
  obtain ⟨a, hanalysis, hnullable⟩ := nullable_iff_derives_empty hnames
  rw [hanalysis] at hrun
  have hmembers : a.nullable.members = [⟨0⟩, ⟨1⟩, ⟨3⟩] := Except.ok.inj hrun
  have hstart : a.nullable.contains ⟨0⟩ = true := by
    rw [← SymbolSet.mem_members, hmembers]
    decide
  refine ⟨hnames, a, hanalysis, hmembers, ((hnullable ⟨0⟩).1.1 hstart).2,
    (hnullable ⟨0⟩).2.1 hstart, fun hvanishes => ?_⟩
  have hmem := (hnullable ⟨5⟩).2.2 hvanishes
  rw [← SymbolSet.mem_members, hmembers] at hmem
  revert hmem
  decide

/-- The unrealizable set of an analysis has exactly the nonterminals that have no derivation tree
with named leaves only. When every symbol has a name, these are the nonterminals without any
derivation tree. -/
theorem unrealizable_iff_derives_nothing (hnames : g.NamesLeft) :
    ∃ a, g.analysis = .ok a ∧
      (∀ symbol, a.unrealizable.contains symbol = true ↔ symbol ∈ g.nonterminals ∧
        ¬ ∃ shape, g.IsDerivation symbol shape ∧ ∀ leaf ∈ shape.yield, leaf.id < g.symbolCount) ∧
      (g.NamesAll → ∀ symbol, a.unrealizable.contains symbol = true ↔ symbol ∈ g.nonterminals ∧
        ¬ ∃ shape, g.IsDerivation symbol shape) := by
  obtain ⟨a, hanalysis, hexplains⟩ := exists_analysis hnames
  refine ⟨a, hanalysis, fun symbol => ?_, fun hall symbol => ?_⟩
  · rw [hexplains.unrealizable.contains]
    refine and_congr_right fun _ => ?_
    push Not
    rfl
  · constructor
    · intro hmem
      have hsymbol := ((hexplains.unrealizable.contains symbol).1 hmem).1
      exact ⟨hsymbol, (hexplains.unrealizable_iff hall hsymbol).1 hmem⟩
    · rintro ⟨hsymbol, hnone⟩
      exact (hexplains.unrealizable_iff hall hsymbol).2 hnone

/-- `S → A U | b`, `A → A a | `, `U → U S | A U` and `R → R`, where `U` and `R` never end. -/
def deadEnds : Grammar :=
  (((({} : Grammar).addAlternatives "S" "AU|b").addAlternatives "A" "Aa|").addAlternatives
    "U" "US|AU").addAlternatives "R" "R"

/-- A way out for `R` that has a leaf without a name, `R → S ?`. -/
def namelessEnd : Grammar := deadEnds.addRule ⟨⟨5⟩, [⟨0⟩, ⟨90⟩]⟩

/-- `U` and `R` are unrealizable in both grammars, although `R` has a derivation tree in the
second one. -/
theorem unrealizable_iff_deadEnds :
    (deadEnds.NamesLeft ∧ deadEnds.NamesAll ∧ ∃ a, deadEnds.analysis = .ok a ∧
      a.unrealizable.members = [⟨2⟩, ⟨5⟩] ∧ (¬ ∃ shape, deadEnds.IsDerivation ⟨5⟩ shape) ∧
      ∃ shape, deadEnds.IsDerivation ⟨0⟩ shape) ∧
    namelessEnd.NamesLeft ∧ ∃ a, namelessEnd.analysis = .ok a ∧
      a.unrealizable.members = [⟨2⟩, ⟨5⟩] ∧
      namelessEnd.IsDerivation ⟨5⟩ (.node ⟨5⟩ [.node ⟨0⟩ [.leaf ⟨3⟩], .leaf ⟨90⟩]) ∧
      ¬ ∃ shape, namelessEnd.IsDerivation ⟨5⟩ shape ∧
        ∀ leaf ∈ shape.yield, leaf.id < namelessEnd.symbolCount := by
  have hleft : deadEnds.NamesLeft := by
    rw [NamesLeft]
    decide
  have hall : deadEnds.NamesAll := by
    rw [NamesAll]
    decide
  have hnames : namelessEnd.NamesLeft := by
    rw [NamesLeft]
    decide
  have hrun : deadEnds.analysis.map (fun a => a.unrealizable.members) = .ok [⟨2⟩, ⟨5⟩] := by cbv
  have hrun' : namelessEnd.analysis.map (fun a => a.unrealizable.members) = .ok [⟨2⟩, ⟨5⟩] := by
    cbv
  obtain ⟨a, hanalysis, _, hnone⟩ := unrealizable_iff_derives_nothing hleft
  obtain ⟨a', hanalysis', hnamed, _⟩ := unrealizable_iff_derives_nothing hnames
  rw [hanalysis] at hrun
  rw [hanalysis'] at hrun'
  have hmembers : a.unrealizable.members = [⟨2⟩, ⟨5⟩] := Except.ok.inj hrun
  have hmembers' : a'.unrealizable.members = [⟨2⟩, ⟨5⟩] := Except.ok.inj hrun'
  have hdead : a.unrealizable.contains ⟨5⟩ = true := by
    rw [← SymbolSet.mem_members, hmembers]
    decide
  have hmute : a'.unrealizable.contains ⟨5⟩ = true := by
    rw [← SymbolSet.mem_members, hmembers']
    decide
  have hderives : ∃ shape, deadEnds.IsDerivation ⟨0⟩ shape :=
    ⟨.node ⟨0⟩ [.leaf ⟨3⟩], by decide⟩
  exact ⟨⟨hleft, hall, a, hanalysis, hmembers, ((hnone hall ⟨5⟩).1 hdead).2, hderives⟩, hnames, a',
    hanalysis', hmembers', by decide, ((hnamed ⟨5⟩).1 hmute).2⟩

/-- The unreachable set of an analysis has exactly the nonterminals that are in no sentential form
of the start symbol. The traversal behind it ends, after one draw for the start symbol and one for
every place of a nonterminal in the alternatives of those that are reached. -/
theorem unreachable_iff_in_no_form (hnames : g.NamesLeft) :
    (∃ reached draws, (g.symbolSet false).spread g.mentioned (.ofList g.start?.toList) =
        .ok reached ∧
      SymbolSet.Traversal g.mentioned (g.symbolSet false) g.start?.toList draws reached ∧
      draws = g.start?.toList.length + (reached.members.flatMap g.mentioned).length) ∧
    ∃ a, g.analysis = .ok a ∧ ∀ symbol, a.unreachable.contains symbol = true ↔
      symbol ∈ g.nonterminals ∧ ∀ start form, g.start? = some start →
        ReflTransGen g.Rewrites [start] form → symbol ∉ form := by
  obtain ⟨a, hanalysis, hexplains⟩ := exists_analysis hnames
  refine ⟨?_, a, hanalysis, fun symbol => ?_⟩
  · obtain ⟨unreachable, hunreachable, _⟩ := bind_eq_ok_iff.1 hanalysis
    obtain ⟨reached, hreached, _⟩ := bind_eq_ok_iff.1 hunreachable
    obtain ⟨draws, htraversal⟩ := SymbolSet.exists_traversal hreached
    rw [Queue.toList_ofList] at htraversal
    exact ⟨reached, draws, hreached, htraversal, htraversal.draws_eq_of_filled⟩
  · rw [hexplains.unreachable.contains]
    refine and_congr_right fun _ => ?_
    rw [Reached]
    push Not
    rfl

/-- Two nonterminals that lead to each other and two that lead to these, with a symbol without a
name on the right: `S → A S | a A`, `A → S a | ?`, `U → V A` and `V → U`. -/
def oneWay : Grammar :=
  (((({} : Grammar).addAlternatives "S" "AS|aA").addAlternatives "A" "Sa").addAlternatives
    "U" "VA").addAlternatives "V" "U" |>.addRule ⟨⟨1⟩, [⟨90⟩]⟩

/-- `S` is drawn once at the start, then four symbols are drawn that follow `S` or `A`. -/
theorem unreachable_iff_oneWay :
    oneWay.NamesLeft ∧
      (∃ reached, SymbolSet.Traversal oneWay.mentioned (oneWay.symbolSet false) [⟨0⟩] 5 reached ∧
        reached.members = [⟨0⟩, ⟨1⟩]) ∧
      ∃ a, oneWay.analysis = .ok a ∧ a.unreachable.members = [⟨3⟩, ⟨4⟩] ∧
        (∀ form, ReflTransGen oneWay.Rewrites [⟨0⟩] form → ⟨4⟩ ∉ form) ∧
        ∃ form, ReflTransGen oneWay.Rewrites [⟨0⟩] form ∧ ⟨1⟩ ∈ form := by
  have hnames : oneWay.NamesLeft := by
    rw [NamesLeft]
    decide
  have hstart : oneWay.start? = some ⟨0⟩ := by decide
  have hspread : ((oneWay.symbolSet false).spread oneWay.mentioned
      (.ofList oneWay.start?.toList)).map SymbolSet.members = .ok [⟨0⟩, ⟨1⟩] := by cbv
  have hrun : oneWay.analysis.map (fun a => a.unreachable.members) = .ok [⟨3⟩, ⟨4⟩] := by cbv
  obtain ⟨⟨reached, draws, hreached, htraversal, hdraws⟩, a, hanalysis, hunreachable⟩ :=
    unreachable_iff_in_no_form hnames
  rw [hreached] at hspread
  rw [hanalysis] at hrun
  have hmarked : reached.members = [⟨0⟩, ⟨1⟩] := Except.ok.inj hspread
  have hmembers : a.unreachable.members = [⟨3⟩, ⟨4⟩] := Except.ok.inj hrun
  have hcount : draws = 5 := by
    rw [hdraws, hmarked]
    decide
  rw [hstart, hcount] at htraversal
  have hnever : a.unreachable.contains ⟨4⟩ = true := by
    rw [← SymbolSet.mem_members, hmembers]
    decide
  have honce : ReflTransGen oneWay.Rewrites [⟨0⟩] [⟨1⟩, ⟨0⟩] :=
    .single (.step [] ⟨⟨0⟩, [⟨1⟩, ⟨0⟩]⟩ [] (by decide))
  exact ⟨hnames, ⟨reached, htraversal, hmarked⟩, a, hanalysis, hmembers,
    fun form hform => ((hunreachable ⟨4⟩).1 hnever).2 ⟨0⟩ form hstart hform, _, honce, by decide⟩

end ContextFree.Grammar
