import ContextFree.Grammar.Text
import ContextFree.Proofs.Generating
import Mathlib

/-!
# The closure is the least closed superset

The closure of a set is the least set of symbols that contains it and passes from the right-hand
side of a nonempty production to its left-hand side. This fixes the result: however the productions
are ordered, and in whatever order the symbols are drawn from the stack, the same bits are set.
-/
namespace ContextFree

namespace Grammar

variable {g other : Grammar} {property : SymbolSet} {base : Symbol → Prop}

/-- The sets of symbols that contain the members of `property`, and the left-hand side of every
nonempty production inside the set. -/
def closedSupersets (g : Grammar) (property : SymbolSet) : Set (Set Symbol) :=
  {marked | (∀ symbol, property.contains symbol = true → symbol ∈ marked) ∧
    ∀ production ∈ g.productions, production.rhs ≠ [] →
      (∀ symbol ∈ production.rhs, symbol ∈ marked) → production.lhs ∈ marked}

lemma isLeast_generated (g : Grammar) (property : SymbolSet) :
    IsLeast (g.closedSupersets property)
      {symbol | g.Generated (fun known => property.contains known = true) symbol} := by
  refine ⟨⟨fun symbol hsymbol => .base hsymbol, fun production hproduction hnonempty hinside =>
    .production hproduction hnonempty hinside⟩, ?_⟩
  intro marked ⟨hbase, hclosed⟩ symbol hsymbol
  induction hsymbol with
  | base holds => exact hbase _ holds
  | production hproduction hnonempty _ ih => exact hclosed _ hproduction hnonempty ih

lemma closedSupersets_congr (hsame : ∀ production, production ∈ other.productions ↔
    production ∈ g.productions) : other.closedSupersets property = g.closedSupersets property := by
  simp only [closedSupersets, hsame]

/-- When there is room for all left-hand sides, the closure ends with the least closed superset. It
is the same for every grammar with the same productions, no production takes a member away, and
the look-up it relies on finds exactly the occurrences of a symbol. -/
theorem closure_isLeast (hroom : ∀ lhs ∈ g.nonterminals, lhs.id < property.capacity) :
    (∃ closed, g.closure property = .ok closed ∧ closed.capacity = property.capacity ∧
      IsLeast (g.closedSupersets property) {symbol | closed.contains symbol = true} ∧
      ∀ other : Grammar, (∀ production, production ∈ other.productions ↔
        production ∈ g.productions) → other.closure property = .ok closed) ∧
    (∀ (f next : Frontier) (occurrence : Occurrence), f.pass occurrence = .ok next →
      ∀ symbol, f.property.contains symbol = true → next.property.contains symbol = true) ∧
    ∀ symbol, Occurrence.find g.occurrenceTable symbol =
      g.occurrences.filter fun occurrence => occurrence.symbol = symbol := by
  obtain ⟨closed, hclosed, hmarks⟩ := exists_closure_of_room hroom
  refine ⟨⟨closed, hclosed, hmarks.capacity, ?_, ?_⟩, fun f next occurrence hpass symbol =>
    Frontier.contains_of_pass hpass, find_occurrenceTable g⟩
  · simpa only [hmarks.contains] using g.isLeast_generated property
  · intro other hsame
    have hlhs : ∀ lhs ∈ other.nonterminals, lhs.id < property.capacity := by
      intro lhs hlhs
      obtain ⟨rhs, hproduction⟩ := mem_nonterminals_iff.1 hlhs
      exact hroom lhs (mem_nonterminals_iff.2 ⟨rhs, (hsame _).1 hproduction⟩)
    obtain ⟨closed', hclosed', hmarks'⟩ := exists_closure_of_room hlhs
    have hset := (other.isLeast_generated property).unique
      (closedSupersets_congr hsame ▸ g.isLeast_generated property)
    rw [hclosed']
    refine congrArg Except.ok (hmarks'.eq ⟨hmarks.capacity, fun symbol => ?_⟩)
    exact (hmarks.contains symbol).trans (Set.ext_iff.1 hset symbol).symm

/-- Two symbols wait for one another, one of them twice, and two nonterminals stay outside:
`S → a A A`, `A → B a`, `B → a`, `C → ` and `D → ?`, where `?` has no room in a small set. -/
def waitingPair : Grammar :=
  (((({} : Grammar).addAlternatives "S" "aAA").addAlternatives "A" "Ba").addAlternatives
    "B" "a").addAlternatives "C" "" |>.addRule ⟨⟨5⟩, [⟨90⟩]⟩

/-- The productions of `waitingPair` the other way round, without names. -/
def pairWaiting : Grammar :=
  ((((({} : Grammar).addRule ⟨⟨5⟩, [⟨90⟩]⟩).addRule ⟨⟨4⟩, []⟩).addRule ⟨⟨3⟩, [⟨1⟩]⟩).addRule
    ⟨⟨2⟩, [⟨3⟩, ⟨1⟩]⟩).addRule ⟨⟨0⟩, [⟨1⟩, ⟨2⟩, ⟨2⟩]⟩

/-- The set of `a` with room for the nonterminals of `waitingPair`. -/
def letterAlone : SymbolSet := ⟨#[false, true, false, false, false, false]⟩

/-- From `a` alone the property reaches `B`, then `A`, then `S`. -/
theorem closure_isLeast_waitingPair :
    (∀ lhs ∈ waitingPair.nonterminals, lhs.id < letterAlone.capacity) ∧ ∃ closed : SymbolSet,
      waitingPair.closure letterAlone = .ok closed ∧
      closed.members = [⟨0⟩, ⟨1⟩, ⟨2⟩, ⟨3⟩] ∧ pairWaiting.closure letterAlone = .ok closed ∧
      (∀ marked ∈ waitingPair.closedSupersets letterAlone, ⟨0⟩ ∈ marked) ∧
      Occurrence.find waitingPair.occurrenceTable ⟨2⟩ =
        [⟨⟨2⟩, ⟨0⟩, [⟨1⟩, ⟨2⟩, ⟨2⟩]⟩, ⟨⟨2⟩, ⟨0⟩, [⟨1⟩, ⟨2⟩, ⟨2⟩]⟩] := by
  have hroom : ∀ lhs ∈ waitingPair.nonterminals, lhs.id < letterAlone.capacity := by decide
  have hsame : pairWaiting.productions.Perm waitingPair.productions := by decide
  obtain ⟨⟨closed, hclosed, -, hleast, horder⟩, -, hfind⟩ := closure_isLeast hroom
  have hrun : (waitingPair.closure letterAlone).map SymbolSet.members =
      .ok [⟨0⟩, ⟨1⟩, ⟨2⟩, ⟨3⟩] := by cbv
  rw [hclosed] at hrun
  have hmembers : closed.members = [⟨0⟩, ⟨1⟩, ⟨2⟩, ⟨3⟩] := Except.ok.inj hrun
  refine ⟨hroom, closed, hclosed, hmembers, horder pairWaiting fun _ => hsame.mem_iff, ?_, ?_⟩
  · intro marked hmarked
    have hstart : closed.contains ⟨0⟩ = true := by
      rw [← SymbolSet.mem_members, hmembers]
      decide
    exact hleast.2 hmarked hstart
  · rw [hfind]
    decide

end Grammar

end ContextFree
