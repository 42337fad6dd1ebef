import ContextFree.Grammar.Text
import ContextFree.Proofs.Reaching
import Mathlib

/-!
# Rewriting rows of symbols

What happens to one piece of a row leaves the pieces around it alone, so a derivation tree
rewrites its root to its sentence. Read backwards, a row that rewrites to the empty row consists
of symbols that vanish, and a row that rewrites to a single nonterminal has one symbol that is
passed on to it, while all others vanish.

A nonterminal is therefore cyclic exactly when it rewrites to itself in one or more steps.
-/
namespace ContextFree

/-- A place in a row of two pieces lies in one of them. -/
lemma cases_of_append_eq {α : Type} {left right before after : List α} {a : α}
    (h : left ++ right = before ++ a :: after) :
    (∃ rest, left = before ++ a :: rest ∧ after = rest ++ right) ∨
      ∃ first, right = first ++ a :: after ∧ before = left ++ first := by
  rcases List.append_eq_append_iff.1 h with ⟨first, hbefore, hright⟩ | ⟨piece, hleft, hpiece⟩
  · exact .inr ⟨first, hright, hbefore⟩
  · cases piece with
    | nil => exact .inr ⟨[], hpiece.symm, by simpa using hleft.symm⟩
    | cons b rest =>
      obtain ⟨rfl, rfl⟩ := List.cons.inj hpiece
      exact .inl ⟨rest, hleft, rfl⟩

namespace Grammar

open Relation

variable {g : Grammar} {symbol other : Symbol} {form next : List Symbol}

/-! ### Rewriting inside a row -/

lemma rewrites_production {rhs : List Symbol} (h : ⟨symbol, rhs⟩ ∈ g.productions) :
    g.Rewrites [symbol] rhs := by
  have hstep := Rewrites.step [] ⟨symbol, rhs⟩ [] h
  rwa [List.nil_append, List.nil_append, List.append_nil] at hstep

lemma mem_productions_of_rewrites (h : g.Rewrites [symbol] next) :
    ⟨symbol, next⟩ ∈ g.productions := by
  generalize hrow : [symbol] = row at h
  obtain ⟨before, ⟨lhs, rhs⟩, after, hproduction⟩ := h
  rcases List.append_eq_singleton_iff.1 hrow.symm with ⟨hbefore, hrest⟩ | ⟨_, hrest⟩
  · obtain ⟨hlhs, hafter⟩ := List.cons.inj hrest
    rw [hbefore, hafter, List.nil_append, List.append_nil, ← hlhs]
    exact hproduction
  · cases hrest

lemma Rewrites.append_left (h : g.Rewrites form next) (piece : List Symbol) :
    g.Rewrites (piece ++ form) (piece ++ next) := by
  obtain ⟨before, production, after, hproduction⟩ := h
  have hstep := Rewrites.step (piece ++ before) production after hproduction
  simpa only [List.append_assoc] using hstep

lemma Rewrites.append_right (h : g.Rewrites form next) (piece : List Symbol) :
    g.Rewrites (form ++ piece) (next ++ piece) := by
  obtain ⟨before, production, after, hproduction⟩ := h
  have hstep := Rewrites.step before production (after ++ piece) hproduction
  simpa only [List.append_assoc, List.cons_append] using hstep

lemma rewrites_append {form' next' : List Symbol} (h : ReflTransGen g.Rewrites form next)
    (h' : ReflTransGen g.Rewrites form' next') :
    ReflTransGen g.Rewrites (form ++ form') (next ++ next') := by
  have hleft : ReflTransGen g.Rewrites (form ++ form') (next ++ form') :=
    ReflTransGen.lift (· ++ form') (fun _ _ hstep => hstep.append_right form') _ _ h
  have hright : ReflTransGen g.Rewrites (next ++ form') (next ++ next') :=
    ReflTransGen.lift (next ++ ·) (fun _ _ hstep => hstep.append_left next) _ _ h'
  exact hleft.trans hright

/-- The roots of a row of shapes rewrite to the sentence of the row when every root rewrites to
the sentence of its shape. -/
lemma rewrites_row {shapes : List Shape}
    (h : ∀ shape ∈ shapes, ReflTransGen g.Rewrites [shape.root] shape.yield) :
    ReflTransGen g.Rewrites (shapes.map Shape.root) (shapes.flatMap Shape.yield) := by
  induction shapes with
  | nil => exact .refl
  | cons shape shapes ih =>
    obtain ⟨hshape, hshapes⟩ := List.forall_mem_cons.1 h
    exact rewrites_append hshape (ih hshapes)

/-- A valid shape rewrites its root to its sentence. -/
theorem Valid.rewrites {shape : Shape} (h : g.Valid shape) :
    ReflTransGen g.Rewrites [shape.root] shape.yield := by
  induction h with
  | leaf symbol => exact .refl
  | node symbol children production _ ih =>
    rw [Shape.root_node, Shape.yield_node]
    exact .head (rewrites_production production) (rewrites_row ih)

/-! ### Rows that vanish -/

/-- A nonterminal vanishes by a production of symbols that vanish. -/
lemma vanishes_of_production {rhs : List Symbol} (hproduction : ⟨symbol, rhs⟩ ∈ g.productions)
    (h : ∀ part ∈ rhs, g.Vanishes part) : g.Vanishes symbol := by
  obtain ⟨children, hroots, hchildren⟩ := exists_row fun part hpart => vanishes_iff.1 (h part hpart)
  have hvalid : g.Valid (.node symbol children) :=
    .node symbol children (hroots ▸ hproduction) fun child hchild => (hchildren child hchild).1
  refine ⟨.node symbol children, ⟨hvalid, children, rfl⟩, ?_⟩
  rw [Shape.yield_node, List.flatMap_eq_nil_iff]
  exact fun child hchild => (hchildren child hchild).2

theorem rewrites_nil_iff :
    ReflTransGen g.Rewrites form [] ↔ ∀ symbol ∈ form, g.Vanishes symbol := by
  constructor
  · intro h
    induction h using ReflTransGen.head_induction_on with
    | refl => simp
    | head hstep _ ih =>
      obtain ⟨before, ⟨lhs, rhs⟩, after, hproduction⟩ := hstep
      obtain ⟨hfront, hafter⟩ := List.forall_mem_append.1 ih
      obtain ⟨hbefore, hrhs⟩ := List.forall_mem_append.1 hfront
      have hlhs := vanishes_of_production hproduction hrhs
      exact List.forall_mem_append.2 ⟨hbefore, List.forall_mem_cons.2 ⟨hlhs, hafter⟩⟩
  · intro h
    obtain ⟨shapes, hroots, hshapes⟩ := exists_row fun part hpart => vanishes_iff.1 (h part hpart)
    have hempty : shapes.flatMap Shape.yield = [] :=
      List.flatMap_eq_nil_iff.2 fun shape hshape => (hshapes shape hshape).2
    rw [← hroots, ← hempty]
    exact rewrites_row fun shape hshape => (hshapes shape hshape).1.rewrites

/-! ### Rows that leave a single nonterminal -/

/-- What is passed on to a nonterminal comes from a nonterminal. -/
lemma mem_nonterminals_of_passes (h : ReflTransGen g.Passes symbol other)
    (hother : other ∈ g.nonterminals) : symbol ∈ g.nonterminals := by
  rcases h.cases_head with rfl | ⟨_, hfirst, _⟩
  · exact hother
  · exact hfirst.left_mem_nonterminals

/-- A row in which one symbol is passed on to a nonterminal while all others vanish. -/
def Leaves (g : Grammar) (form : List Symbol) (other : Symbol) : Prop :=
  ∃ before symbol after, form = before ++ symbol :: after ∧ (∀ part ∈ before, g.Vanishes part) ∧
    (∀ part ∈ after, g.Vanishes part) ∧ ReflTransGen g.Passes symbol other

/-- What a row leaves after a step it left before the step. -/
lemma Leaves.of_rewrites (h : g.Leaves next other) (hstep : g.Rewrites form next)
    (hother : other ∈ g.nonterminals) : g.Leaves form other := by
  obtain ⟨left, ⟨lhs, rhs⟩, right, hproduction⟩ := hstep
  obtain ⟨before, symbol, after, hform, hbefore, hafter, hpasses⟩ := h
  -- the symbol that is passed on stands to the left of the new piece, in it or to its right
  rcases cases_of_append_eq hform with ⟨rest, hfront, rfl⟩ | ⟨first, rfl, rfl⟩
  · obtain ⟨hrest, hright⟩ := List.forall_mem_append.1 hafter
    rcases cases_of_append_eq hfront with ⟨rest', rfl, rfl⟩ | ⟨first, rfl, rfl⟩
    · obtain ⟨hrest', hrhs⟩ := List.forall_mem_append.1 hrest
      have hlhs := vanishes_of_production hproduction hrhs
      refine ⟨before, symbol, rest' ++ lhs :: right, by simp, hbefore, ?_, hpasses⟩
      exact List.forall_mem_append.2 ⟨hrest', List.forall_mem_cons.2 ⟨hlhs, hright⟩⟩
    · obtain ⟨hleft, hfirst⟩ := List.forall_mem_append.1 hbefore
      have hsymbol := mem_nonterminals_of_passes hpasses hother
      have hlhs : g.Passes lhs symbol :=
        ⟨hsymbol, first, rest, hproduction, List.forall_mem_append.2 ⟨hfirst, hrest⟩⟩
      exact ⟨left, lhs, right, rfl, hleft, hright, .head hlhs hpasses⟩
  · obtain ⟨hfront, hfirst⟩ := List.forall_mem_append.1 hbefore
    obtain ⟨hleft, hrhs⟩ := List.forall_mem_append.1 hfront
    have hlhs := vanishes_of_production hproduction hrhs
    refine ⟨left ++ lhs :: first, symbol, after, by simp, ?_, hafter, hpasses⟩
    exact List.forall_mem_append.2 ⟨hleft, List.forall_mem_cons.2 ⟨hlhs, hfirst⟩⟩

/-- Once everything around a symbol has vanished, the symbol is all that is left. -/
lemma rewrites_of_vanishes {before after : List Symbol}
    (hbefore : ∀ part ∈ before, g.Vanishes part) (hafter : ∀ part ∈ after, g.Vanishes part) :
    ReflTransGen g.Rewrites (before ++ symbol :: after) [symbol] := by
  have hfront := rewrites_nil_iff.2 hbefore
  have hback := rewrites_nil_iff.2 hafter
  have hself : ReflTransGen g.Rewrites [symbol] [symbol] := .refl
  exact rewrites_append hfront (rewrites_append hself hback)

lemma Passes.rewrites (h : g.Passes symbol other) : TransGen g.Rewrites [symbol] [other] := by
  obtain ⟨_, before, after, hproduction, hvanish⟩ := h
  obtain ⟨hbefore, hafter⟩ := List.forall_mem_append.1 hvanish
  exact .head' (rewrites_production hproduction) (rewrites_of_vanishes hbefore hafter)

/-- A row that rewrites to a single nonterminal leaves that nonterminal. -/
theorem leaves_of_rewrites (hother : other ∈ g.nonterminals)
    (h : ReflTransGen g.Rewrites form [other]) : g.Leaves form other := by
  induction h using ReflTransGen.head_induction_on with
  | refl => exact ⟨[], other, [], rfl, by simp, by simp, .refl⟩
  | head hstep _ ih => exact ih.of_rewrites hstep hother

/-- A sentence comes from one nonterminal to another exactly when the first one rewrites to the
second. -/
theorem transGen_passes_iff (hother : other ∈ g.nonterminals) :
    TransGen g.Passes symbol other ↔ TransGen g.Rewrites [symbol] [other] := by
  constructor
  · intro h
    induction h with
    | single hpasses => exact hpasses.rewrites
    | tail _ hpasses ih => exact (ih hpasses.left_mem_nonterminals).trans hpasses.rewrites
  · intro h
    obtain ⟨rhs, hfirst, hrest⟩ := TransGen.head'_iff.1 h
    have hproduction := mem_productions_of_rewrites hfirst
    obtain ⟨before, middle, after, rfl, hbefore, hafter, hpasses⟩ :=
      leaves_of_rewrites hother hrest
    have hmiddle := mem_nonterminals_of_passes hpasses hother
    have hsymbol : g.Passes symbol middle :=
      ⟨hmiddle, before, after, hproduction, List.forall_mem_append.2 ⟨hbefore, hafter⟩⟩
    exact .head' hsymbol hpasses

/-- The cyclic set of an analysis has exactly the symbols that rewrite to themselves in one or
more steps. -/
theorem cyclic_iff_rewrites_itself (hnames : g.NamesLeft) :
    ∃ a, g.analysis = .ok a ∧
      ∀ symbol, a.cyclic.contains symbol = true ↔ TransGen g.Rewrites [symbol] [symbol] := by
  obtain ⟨a, hanalysis, hexplains⟩ := exists_analysis hnames
  refine ⟨a, hanalysis, fun symbol => ?_⟩
  rw [hexplains.cyclic.contains]
  constructor
  · intro hcycle
    exact (transGen_passes_iff (left_mem_nonterminals_of_transGen hcycle)).1 hcycle
  · intro hcycle
    -- a terminal has no first step
    obtain ⟨rhs, hfirst, _⟩ := TransGen.head'_iff.1 hcycle
    have hproduction := mem_productions_of_rewrites hfirst
    exact (transGen_passes_iff (lhs_mem_nonterminals hproduction)).2 hcycle

/-- A nonterminal with symbols around it that may vanish, `S → A S B | c`, `A → a | ε` and
`B → A A`. -/
def vanishingSides : Grammar :=
  ((({} : Grammar).addAlternatives "S" "ASB|c").addAlternatives "A" "a|").addAlternatives "B" "AA"

/-- `S` rewrites to itself, as `A` and `B` vanish around it. `A` does not. -/
theorem cyclic_vanishingSides :
    vanishingSides.NamesLeft ∧ ∃ a, vanishingSides.analysis = .ok a ∧
      a.cyclic.members = [⟨0⟩] ∧ TransGen vanishingSides.Rewrites [⟨0⟩] [⟨0⟩] ∧
      ¬ TransGen vanishingSides.Rewrites [⟨1⟩] [⟨1⟩] := by
  have hnames : vanishingSides.NamesLeft := by
    rw [NamesLeft]
    decide
  have hrun : vanishingSides.analysis.map (fun a => a.cyclic.members) = .ok [⟨0⟩] := by cbv
  obtain ⟨a, hanalysis, hcyclic⟩ := cyclic_iff_rewrites_itself hnames
  rw [hanalysis] at hrun
  have hmembers : a.cyclic.members = [⟨0⟩] := Except.ok.inj hrun
  refine ⟨hnames, a, hanalysis, hmembers, (hcyclic ⟨0⟩).1 ?_, fun hcycle => ?_⟩
  · rw [← SymbolSet.mem_members, hmembers]
    decide
  · have hmem := (hcyclic ⟨1⟩).2 hcycle
    rw [← SymbolSet.mem_members, hmembers] at hmem
    revert hmem
    decide

end Grammar

end ContextFree
