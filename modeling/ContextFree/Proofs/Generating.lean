import ContextFree.Analysis.Basic
import ContextFree.Proofs.Indexing
import ContextFree.Proofs.Marking
import ContextFree.Proofs.Shapes

/-!
# What the closure under productions generates

The closure of a set contains what can be generated from its members by productions with a
symbol on the right. The loop keeps the set closed up to the symbols that are still on the
stack and the occurrences of the last symbol that are still to come: a production whose right-hand
side lies inside the set has its left-hand side there, mentions a symbol of the stack, or is still
to come. The last symbol of a right-hand side to gain the property is on the stack from then on
until it is drawn.

Started from the left-hand sides of empty productions, the closure finds the nonterminals with a
derivation tree without leaves; started from these and the terminals, it finds the symbols from
which a row of named terminals derives.
-/
namespace ContextFree

namespace Grammar

/-- The symbols that productions generate from a property. A production without right-hand side
symbols generates nothing. -/
inductive Generated (g : Grammar) (base : Symbol → Prop) : Symbol → Prop
  | base {symbol : Symbol} (holds : base symbol) : Generated g base symbol
  | production {production : Production} (mem : production ∈ g.productions)
      (nonempty : production.rhs ≠ []) (rhs : ∀ symbol ∈ production.rhs, Generated g base symbol) :
      Generated g base production.lhs

end Grammar

namespace Frontier

variable {g : Grammar} {initial : SymbolSet} {f next : Frontier} {occurrence : Occurrence}
  {rest : List Occurrence}

lemma exists_pass (hroom : occurrence.production.lhs.id < f.property.capacity) :
    ∃ next, f.pass occurrence = .ok next := by
  obtain ⟨larger, hlarger⟩ := SymbolSet.exists_put hroom true
  unfold pass
  dsimp only
  rw [hlarger]
  split
  · exact ⟨_, rfl⟩
  · exact ⟨_, rfl⟩

lemma contains_of_pass (h : f.pass occurrence = .ok next) {symbol : Symbol}
    (hsymbol : f.property.contains symbol = true) : next.property.contains symbol = true := by
  rcases cases_of_pass h with ⟨-, -, hput, -⟩ | ⟨-, rfl⟩
  · rw [SymbolSet.contains_of_put hput, hsymbol, ite_self]
  · exact hsymbol

/-- Where the closure stands while the occurrences `rest` of a symbol are still to come. A
production inside the property that has not passed it on yet mentions a symbol of the stack, or
comes up in the rest. -/
structure OnTheWay (g : Grammar) (initial : SymbolSet) (rest : List Occurrence) (f : Frontier) :
    Prop where
  capacity : f.property.capacity = initial.capacity
  kept : ∀ symbol, initial.contains symbol = true → f.property.contains symbol = true
  generated : ∀ symbol, f.property.contains symbol = true →
    g.Generated (fun known => initial.contains known = true) symbol
  pending : ∀ production ∈ g.productions, production.rhs ≠ [] →
    (∀ symbol ∈ production.rhs, f.property.contains symbol = true) →
      f.property.contains production.lhs = true ∨ (∃ symbol ∈ production.rhs, symbol ∈ f.stack) ∨
        ∃ occurrence ∈ rest, occurrence.production = production

namespace OnTheWay

lemma start (g : Grammar) (initial : SymbolSet) :
    OnTheWay g initial [] ⟨initial, initial.members.reverse⟩ where
  capacity := rfl
  kept _ hsymbol := hsymbol
  generated _ hsymbol := .base hsymbol
  pending production _ hnonempty hinside := by
    obtain ⟨symbol, hsymbol⟩ := List.exists_mem_of_ne_nil _ hnonempty
    refine .inr (.inl ⟨symbol, hsymbol, ?_⟩)
    rw [List.mem_reverse, SymbolSet.mem_members]
    exact hinside symbol hsymbol

/-- The productions that mention a symbol take its place. -/
lemma pop {property : SymbolSet} {symbol : Symbol} {stack : List Symbol}
    (h : OnTheWay g initial [] ⟨property, symbol :: stack⟩) :
    OnTheWay g initial (Occurrence.find g.occurrenceTable symbol) ⟨property, stack⟩ where
  capacity := h.capacity
  kept := h.kept
  generated := h.generated
  pending production hproduction hnonempty hinside := by
    rcases h.pending production hproduction hnonempty hinside with hlhs | ⟨other, hother, hstack⟩ |
      ⟨_, hnone, _⟩
    · exact .inl hlhs
    · rcases List.mem_cons.1 hstack with rfl | hstack
      · exact .inr (.inr ⟨⟨other, production⟩, Grammar.mem_find.2 ⟨hproduction, hother, rfl⟩, rfl⟩)
      · exact .inr (.inl ⟨other, hother, hstack⟩)
    · cases hnone

/-- A production that is not inside the property, or has passed it on before, is done with. -/
lemma skip (h : OnTheWay g initial (occurrence :: rest) f)
    (hdone : f.property.contains occurrence.production.lhs = true ∨
      ∃ symbol ∈ occurrence.production.rhs, f.property.contains symbol = false) :
    OnTheWay g initial rest f where
  capacity := h.capacity
  kept := h.kept
  generated := h.generated
  pending production hproduction hnonempty hinside := by
    rcases h.pending production hproduction hnonempty hinside with hlhs | hstack |
      ⟨other, hother, rfl⟩
    · exact .inl hlhs
    · exact .inr (.inl hstack)
    · rcases List.mem_cons.1 hother with rfl | hother
      · rcases hdone with hlhs | ⟨symbol, hsymbol, hout⟩
        · exact .inl hlhs
        · rw [hinside symbol hsymbol] at hout
          cases hout
      · exact .inr (.inr ⟨other, hother, rfl⟩)

/-- A symbol that gains the property goes on the stack, so every right-hand side that it brings
inside mentions a symbol of the stack. -/
lemma gain (h : OnTheWay g initial (occurrence :: rest) f)
    (hproduction : occurrence.production ∈ g.productions)
    (hnonempty : occurrence.production.rhs ≠ [])
    (hinside : ∀ symbol ∈ occurrence.production.rhs, f.property.contains symbol = true)
    (hput : f.property.put occurrence.production.lhs true = .ok next.property)
    (hstack : next.stack = occurrence.production.lhs :: f.stack) :
    OnTheWay g initial rest next := by
  have hcontains := SymbolSet.contains_of_put hput
  have hmore : ∀ symbol, f.property.contains symbol = true →
      next.property.contains symbol = true := by
    intro symbol hsymbol
    rw [hcontains, hsymbol, ite_self]
  refine ⟨(SymbolSet.capacity_of_put hput).trans h.capacity,
    fun symbol hsymbol => hmore symbol (h.kept symbol hsymbol), ?_, ?_⟩
  · intro symbol hsymbol
    rw [hcontains] at hsymbol
    split at hsymbol
    · next heq =>
      rw [heq]
      exact .production hproduction hnonempty fun part hpart =>
        h.generated part (hinside part hpart)
    · exact h.generated symbol hsymbol
  · intro production hmem hne hnow
    rw [hstack]
    by_cases hgained : occurrence.production.lhs ∈ production.rhs
    · exact .inr (.inl ⟨_, hgained, List.mem_cons_self⟩)
    · have hbefore : ∀ symbol ∈ production.rhs, f.property.contains symbol = true := by
        intro symbol hsymbol
        have hsame := hnow symbol hsymbol
        rwa [hcontains, if_neg (ne_of_mem_of_not_mem hsymbol hgained)] at hsame
      rcases h.pending production hmem hne hbefore with hlhs | ⟨symbol, hsymbol, hwaits⟩ |
        ⟨other, hother, rfl⟩
      · exact .inl (hmore _ hlhs)
      · exact .inr (.inl ⟨symbol, hsymbol, List.mem_cons_of_mem _ hwaits⟩)
      · rcases List.mem_cons.1 hother with rfl | hother
        · rw [hcontains, if_pos rfl]
          exact .inl rfl
        · exact .inr (.inr ⟨other, hother, rfl⟩)

lemma pass (h : OnTheWay g initial (occurrence :: rest) f)
    (hproduction : occurrence.production ∈ g.productions)
    (hnonempty : occurrence.production.rhs ≠ []) (hpass : f.pass occurrence = .ok next) :
    OnTheWay g initial rest next := by
  rcases cases_of_pass hpass with ⟨-, hinside, hput, hstack⟩ | ⟨hdone, rfl⟩
  · exact h.gain hproduction hnonempty hinside hput hstack
  · exact h.skip hdone

/-- The loop ends with nothing left to look at. -/
lemma exists_closeFrom (hroom : ∀ lhs ∈ g.nonterminals, lhs.id < initial.capacity)
    (hrest : ∀ occurrence ∈ rest,
      occurrence.production ∈ g.productions ∧ occurrence.production.rhs ≠ [])
    (h : OnTheWay g initial rest f) :
    ∃ closed, Grammar.closeFrom g.occurrenceTable f rest = .ok closed ∧
      OnTheWay g initial [] ⟨closed, []⟩ := by
  fun_induction Grammar.closeFrom g.occurrenceTable f rest with
  | case1 f occurrence rest fault hfault =>
    obtain ⟨⟨hproduction, -⟩, -⟩ := List.forall_mem_cons.1 hrest
    have hlhs : occurrence.production.lhs ∈ g.nonterminals :=
      Grammar.mem_nonterminals_iff.2 ⟨occurrence.production.rhs, hproduction⟩
    obtain ⟨next, hnext⟩ := exists_pass (h.capacity ▸ hroom _ hlhs)
    rw [hfault] at hnext
    cases hnext
  | case2 f occurrence rest next hpass _ ih =>
    obtain ⟨⟨hproduction, hnonempty⟩, hrest⟩ := List.forall_mem_cons.1 hrest
    exact ih hrest (h.pass hproduction hnonempty hpass)
  | case3 property symbol stack ih =>
    refine ih (fun occurrence hfound => ?_) h.pop
    obtain ⟨hproduction, hsymbol, -⟩ := Grammar.mem_find.1 hfound
    exact ⟨hproduction, List.ne_nil_of_mem hsymbol⟩
  | case4 property => exact ⟨property, rfl, h⟩

end OnTheWay

end Frontier

namespace Grammar

variable {g : Grammar}

/-- The closure of a set marks what is generated from its members. -/
theorem exists_closure_of_room {property : SymbolSet}
    (hroom : ∀ lhs ∈ g.nonterminals, lhs.id < property.capacity) :
    ∃ closed, g.closure property = .ok closed ∧
      closed.Marks property.capacity
        (g.Generated fun symbol => property.contains symbol = true) := by
  obtain ⟨closed, hclosed, hdone⟩ := 
    (Frontier.OnTheWay.start g property).exists_closeFrom hroom (by simp)
  refine ⟨closed, hclosed, hdone.capacity, fun symbol => ⟨hdone.generated symbol, ?_⟩⟩
  intro hgenerated
  induction hgenerated with
  | base hbase => exact hdone.kept _ hbase
  | production hproduction hnonempty _ ih =>
    rcases hdone.pending _ hproduction hnonempty ih with hlhs | ⟨_, _, hnone⟩ | ⟨_, hnone, _⟩
    · exact hlhs
    · cases hnone
    · cases hnone

/-- The closure of a set that marks a property marks what is generated from the property. -/
theorem exists_closure (hnames : g.NamesLeft) {property : SymbolSet} {base : Symbol → Prop}
    (hproperty : property.Marks g.symbolCount base) :
    ∃ closed, g.closure property = .ok closed ∧ closed.Marks g.symbolCount (g.Generated base) := by
  have hbase : base = fun symbol => property.contains symbol = true :=
    funext fun symbol => propext (hproperty.contains symbol).symm
  rw [hbase, ← hproperty.capacity]
  exact exists_closure_of_room (hproperty.capacity ▸ hnames)

/-- Shapes that are there for every symbol of a row can be put side by side. -/
lemma exists_row {motive : Shape → Prop} {symbols : List Symbol}
    (h : ∀ symbol ∈ symbols, ∃ shape, shape.root = symbol ∧ motive shape) :
    ∃ shapes : List Shape, shapes.map Shape.root = symbols ∧ ∀ shape ∈ shapes, motive shape := by
  induction symbols with
  | nil => exact ⟨[], rfl, by simp⟩
  | cons symbol symbols ih =>
    obtain ⟨⟨shape, hroot, hshape⟩, hrest⟩ := List.forall_mem_cons.1 h
    obtain ⟨shapes, hroots, hshapes⟩ := ih hrest
    exact ⟨shape :: shapes, by rw [List.map_cons, hroot, hroots],
      List.forall_mem_cons.2 ⟨hshape, hshapes⟩⟩

/-- What is generated from terminals with a property and from empty productions is what has a
valid shape whose leaves have the property. -/
theorem generated_iff {property : Symbol → Prop} {symbol : Symbol} :
    g.Generated (fun known => property known ∧ known ∉ g.nonterminals ∨
        ⟨known, []⟩ ∈ g.productions) symbol ↔
      ∃ shape, shape.root = symbol ∧ g.Valid shape ∧ ∀ leaf ∈ shape.yield, property leaf := by
  constructor
  · intro hgenerated
    induction hgenerated with
    | @base symbol hbase =>
      rcases hbase with ⟨hproperty, hterminal⟩ | hempty
      · exact ⟨.leaf symbol, rfl, .leaf symbol hterminal, by simpa using hproperty⟩
      · exact ⟨.node symbol [], rfl, .node symbol [] hempty (by simp), by simp⟩
    | @production production hproduction _ _ ih =>
      obtain ⟨children, hroots, hchildren⟩ := exists_row ih
      refine ⟨.node production.lhs children, rfl, .node _ children ?_ ?_, ?_⟩
      · rw [hroots]
        exact hproduction
      · intro child hchild
        exact (hchildren child hchild).1
      · intro leaf hleaf
        rw [Shape.yield_node, List.mem_flatMap] at hleaf
        obtain ⟨child, hchild, hleaf⟩ := hleaf
        exact (hchildren child hchild).2 leaf hleaf
  · rintro ⟨shape, rfl, hvalid, hleaves⟩
    induction hvalid with
    | leaf symbol hterminal => exact .base (.inl ⟨by simpa using hleaves, hterminal⟩)
    | node symbol children hproduction _ ih =>
      by_cases hempty : children = []
      · rw [hempty] at hproduction
        exact .base (.inr hproduction)
      · refine .production hproduction (by simpa using hempty) ?_
        intro root hroot
        obtain ⟨child, hchild, rfl⟩ := List.mem_map.1 hroot
        refine ih child hchild fun leaf hleaf => hleaves leaf ?_
        rw [Shape.yield_node, List.mem_flatMap]
        exact ⟨child, hchild, hleaf⟩

/-- Whether a symbol has a derivation tree without leaves. -/
def Vanishes (g : Grammar) (symbol : Symbol) : Prop :=
  ∃ shape, g.IsDerivation symbol shape ∧ shape.yield = []

lemma vanishes_iff {symbol : Symbol} :
    g.Vanishes symbol ↔ ∃ shape, shape.root = symbol ∧ g.Valid shape ∧ shape.yield = [] := by
  constructor
  · rintro ⟨shape, hderivation, hyield⟩
    exact ⟨shape, root_of_isDerivation hderivation, hderivation.1, hyield⟩
  · rintro ⟨shape, rfl, hvalid, hyield⟩
    cases hvalid with
    | leaf symbol => cases hyield
    | node symbol children production valid =>
      exact ⟨_, ⟨.node symbol children production valid, children, rfl⟩, hyield⟩

theorem exists_nullableSet (hnames : g.NamesLeft) :
    ∃ s, g.nullableSet = .ok s ∧ s.Marks g.symbolCount g.Vanishes := by
  obtain ⟨nulling, hnulling, hmarks⟩ := exists_nullingSet hnames
  obtain ⟨nullable, hnullable, hclosed⟩ := exists_closure hnames hmarks
  refine ⟨nullable, bind_eq_ok_iff.2 ⟨nulling, hnulling, hnullable⟩, hclosed.congr fun symbol => ?_⟩
  have hbase : (fun known => ⟨known, []⟩ ∈ g.productions) =
      fun known => False ∧ known ∉ g.nonterminals ∨ ⟨known, []⟩ ∈ g.productions := by
    simp only [false_and, false_or]
  rw [hbase, generated_iff, vanishes_iff]
  simp only [List.eq_nil_iff_forall_not_mem]

/-- A nonterminal is marked as unrealizable when all its derivation trees have a leaf without a
name. -/
theorem exists_unrealizableSet (hnames : g.NamesLeft) :
    ∃ s, g.unrealizableSet = .ok s ∧ s.Marks g.symbolCount fun symbol =>
      symbol ∈ g.nonterminals ∧
        ∀ shape, g.IsDerivation symbol shape → ∃ leaf ∈ shape.yield, g.symbolCount ≤ leaf.id := by
  obtain ⟨terminals, hterminals, hmarks⟩ := exists_terminalSet hnames
  obtain ⟨nulling, hnulling, hempty⟩ := exists_nullingSet hnames
  obtain ⟨base, hbase, hunion⟩ := hmarks.exists_union hempty
  obtain ⟨realizable, hrealizable, hclosed⟩ := exists_closure hnames hunion
  refine ⟨realizable.negate, ?_, realizable.capacity_negate.trans hclosed.capacity, ?_⟩
  · exact bind_eq_ok_iff.2 ⟨terminals, hterminals, bind_eq_ok_iff.2 ⟨nulling, hnulling,
      bind_eq_ok_iff.2 ⟨base, hbase, bind_eq_ok_iff.2 ⟨realizable, hrealizable, rfl⟩⟩⟩⟩
  · intro symbol
    rw [hclosed.contains_negate, generated_iff]
    constructor
    · rintro ⟨hname, hnone⟩
      have hnonterminal : symbol ∈ g.nonterminals := by
        by_contra hterminal
        exact hnone ⟨.leaf symbol, rfl, .leaf symbol hterminal, by simpa using hname⟩
      refine ⟨hnonterminal, fun shape hderivation => ?_⟩
      by_contra hnamed
      push Not at hnamed
      exact hnone ⟨shape, root_of_isDerivation hderivation, hderivation.1, hnamed⟩
    · rintro ⟨hnonterminal, hunnamed⟩
      refine ⟨hnames symbol hnonterminal, ?_⟩
      rintro ⟨shape, rfl, hvalid, hnamed⟩
      obtain ⟨leaf, hleaf, hbeyond⟩ := hunnamed shape (hvalid.isDerivation hnonterminal)
      have := hnamed leaf hleaf
      omega

end Grammar

end ContextFree
