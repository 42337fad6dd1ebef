import ContextFree.Proofs.Reaching
import Mathlib.Data.Set.Finite.Basic

/-!
# Shapes with a gap

A frame is a node with a gap among its children, and a row of frames, the outermost first, is a
shape with a gap below. A spine of a grammar is such a row in which every frame is a production
with valid shapes around the gap, so a derivation tree of the symbol at the gap becomes one of
the symbol at the top. Every subtree of a derivation tree sits at the gap of a spine.

A cyclic nonterminal has a spine that adds no leaf to the sentence. Filled again and again, it
gives infinitely many derivation trees of one word.
-/
namespace ContextFree

open Relation

/-- A node with a gap among its children. -/
structure Frame where
  symbol : Symbol
  before : List Shape
  after : List Shape

namespace Frame

/-- Puts a shape into the gap. -/
def fill (frame : Frame) (shape : Shape) : Shape :=
  .node frame.symbol (frame.before ++ shape :: frame.after)

lemma fill_injective (frame : Frame) : Function.Injective frame.fill := by
  intro a b h
  have hchildren := (Shape.node.inj h).2
  exact (List.cons.inj (List.append_cancel_left hchildren)).1

lemma yield_fill (frame : Frame) (shape : Shape) :
    (frame.fill shape).yield =
      frame.before.flatMap Shape.yield ++ shape.yield ++ frame.after.flatMap Shape.yield := by
  simp [fill]

lemma height_fill (frame : Frame) (shape : Shape) : shape.height + 1 ≤ (frame.fill shape).height := by
  have hchild : shape ∈ frame.before ++ shape :: frame.after := by simp
  have hrow := Shape.tallest_le_iff.1 (le_refl (Shape.tallest _)) shape hchild
  rw [fill, Shape.height]
  omega

end Frame

namespace Shape

/-- Puts a shape into the gap below a row of frames. -/
def plug (frames : List Frame) (shape : Shape) : Shape := frames.foldr Frame.fill shape

@[simp] theorem plug_nil (shape : Shape) : plug [] shape = shape := rfl

@[simp] theorem plug_cons (frame : Frame) (frames : List Frame) (shape : Shape) :
    plug (frame :: frames) shape = frame.fill (plug frames shape) := rfl

lemma plug_append (frames more : List Frame) (shape : Shape) :
    plug (frames ++ more) shape = plug frames (plug more shape) := List.foldr_append

lemma plug_injective (frames : List Frame) : Function.Injective (plug frames) := by
  induction frames with
  | nil => exact fun _ _ h => h
  | cons frame frames ih => exact frame.fill_injective.comp ih

/-- What is put into the gap appears as one piece of the sentence. -/
lemma exists_yield_plug (frames : List Frame) :
    ∃ left right, ∀ shape, (plug frames shape).yield = left ++ shape.yield ++ right := by
  induction frames with
  | nil => exact ⟨[], [], fun shape => by simp⟩
  | cons frame frames ih =>
    obtain ⟨left, right, hyield⟩ := ih
    refine ⟨frame.before.flatMap yield ++ left, right ++ frame.after.flatMap yield, fun shape => ?_⟩
    rw [plug_cons, Frame.yield_fill, hyield]
    simp only [List.append_assoc]

lemma height_plug (frames : List Frame) (shape : Shape) :
    shape.height + frames.length ≤ (plug frames shape).height := by
  induction frames with
  | nil => exact le_refl _
  | cons frame frames ih =>
    have hfill := frame.height_fill (plug frames shape)
    rw [plug_cons, List.length_cons]
    omega

/-- A shape grows with every round of plugging, so no two rounds give the same one. -/
lemma plug_iterate_injective {frames : List Frame} (hnonempty : frames ≠ []) (shape : Shape) :
    Function.Injective fun n => (plug frames)^[n] shape := by
  have hgrows : StrictMono fun n => ((plug frames)^[n] shape).height := by
    apply strictMono_nat_of_lt_succ
    intro n
    have hheight := height_plug frames ((plug frames)^[n] shape)
    have hlength := List.length_pos_of_ne_nil hnonempty
    rw [Function.iterate_succ_apply']
    omega
  intro m n heq
  exact hgrows.injective (congrArg height heq)

/-- The subtrees of a shape, itself included. -/
inductive Within (inner : Shape) : Shape → Prop
  | self : Within inner inner
  | child {symbol : Symbol} {children : List Shape} {child : Shape} (mem : child ∈ children)
      (within : Within inner child) : Within inner (node symbol children)

end Shape

open Shape

namespace Grammar

variable {g : Grammar} {symbol inner : Symbol} {shape : Shape} {frames : List Frame}

/-- Frames of productions, from a symbol at the top to a symbol at the gap. -/
inductive Spine (g : Grammar) : Symbol → List Frame → Symbol → Prop
  | nil (symbol : Symbol) : Spine g symbol [] symbol
  | cons {symbol next inner : Symbol} {before after : List Shape} {frames : List Frame}
      (production : ⟨symbol, before.map root ++ next :: after.map root⟩ ∈ g.productions)
      (valid : ∀ shape ∈ before ++ after, g.Valid shape) (rest : Spine g next frames inner) :
      Spine g symbol (⟨symbol, before, after⟩ :: frames) inner

namespace Spine

lemma append {middle : Symbol} {more : List Frame} (h : g.Spine symbol frames middle)
    (hmore : g.Spine middle more inner) : g.Spine symbol (frames ++ more) inner := by
  induction h with
  | nil => exact hmore
  | cons production valid _ ih => exact .cons production valid (ih hmore)

lemma mem_nonterminals (h : g.Spine symbol frames inner) (hinner : inner ∈ g.nonterminals) :
    symbol ∈ g.nonterminals := by
  cases h with
  | nil => exact hinner
  | cons production => exact lhs_mem_nonterminals production

lemma mentions (h : g.Spine symbol frames inner) (hinner : inner ∈ g.nonterminals) :
    ReflTransGen g.Mentions symbol inner := by
  induction h with
  | nil => exact .refl
  | cons production _ rest ih =>
    exact .head ⟨rest.mem_nonterminals hinner, _, production, by simp⟩ (ih hinner)

/-- A valid shape at the gap makes the whole shape valid. -/
lemma valid_plug (h : g.Spine symbol frames inner) (hvalid : g.Valid shape)
    (hroot : shape.root = inner) :
    g.Valid (plug frames shape) ∧ (plug frames shape).root = symbol := by
  induction h with
  | nil => exact ⟨hvalid, hroot⟩
  | @cons symbol next inner before after frames production valid _ ih =>
    obtain ⟨hrest, hnext⟩ := ih hroot
    obtain ⟨hbefore, hafter⟩ := List.forall_mem_append.1 valid
    refine ⟨.node symbol _ ?_ ?_, rfl⟩
    · rw [List.map_append, List.map_cons]
      exact hnext.symm ▸ production
    · exact List.forall_mem_append.2 ⟨hbefore, List.forall_mem_cons.2 ⟨hrest, hafter⟩⟩

lemma isDerivation_plug (h : g.Spine symbol frames inner) (hshape : g.IsDerivation inner shape) :
    g.IsDerivation symbol (plug frames shape) := by
  obtain ⟨hvalid, hroot⟩ := h.valid_plug hshape.1 (root_of_isDerivation hshape)
  rw [← hroot]
  exact hvalid.isDerivation (hroot ▸ h.mem_nonterminals hshape.mem_nonterminals)

end Spine

/-- A child of a valid shape sits at the gap of a single frame. -/
lemma exists_frame_of_mem {children : List Shape} {child : Shape}
    (hvalid : g.Valid (.node symbol children)) (hchild : child ∈ children) :
    ∃ frame : Frame, g.Spine symbol [frame] child.root ∧
      frame.fill child = .node symbol children := by
  obtain ⟨before, after, rfl⟩ := List.append_of_mem hchild
  have hproduction := hvalid.production_mem
  rw [List.map_append, List.map_cons] at hproduction
  refine ⟨⟨symbol, before, after⟩, .cons hproduction ?_ (.nil child.root), rfl⟩
  intro other hother
  exact hvalid.of_mem (mem_of_mem_around hother)

/-- A subtree of a valid shape is valid and sits at the gap of a spine. -/
theorem exists_spine_of_within {part : Shape} (h : part.Within shape) (hvalid : g.Valid shape) :
    ∃ frames, g.Spine shape.root frames part.root ∧ plug frames part = shape ∧ g.Valid part := by
  induction h with
  | self => exact ⟨[], .nil _, rfl, hvalid⟩
  | @child symbol children child hchild _ ih =>
    obtain ⟨frames, hspine, hplug, hpart⟩ := ih (hvalid.of_mem hchild)
    obtain ⟨frame, hframe, hfill⟩ := exists_frame_of_mem hvalid hchild
    refine ⟨frame :: frames, hframe.append hspine, ?_, hpart⟩
    rw [plug_cons, hplug, hfill]

/-- A word has infinitely many derivation trees of a symbol. -/
def InfinitelyAmbiguous (g : Grammar) (symbol : Symbol) (word : List Symbol) : Prop :=
  {shape | g.IsDerivation symbol shape ∧ shape.yield = word}.Infinite

/-- Infinitely many trees at the gap make infinitely many trees at the top. -/
theorem Spine.infinitelyAmbiguous (h : g.Spine symbol frames inner) {word : List Symbol}
    (hinner : g.InfinitelyAmbiguous inner word) : ∃ word, g.InfinitelyAmbiguous symbol word := by
  obtain ⟨left, right, hyield⟩ := exists_yield_plug frames
  refine ⟨left ++ word ++ right, (hinner.image (plug_injective frames).injOn).mono ?_⟩
  rintro _ ⟨shape, ⟨hshape, rfl⟩, rfl⟩
  exact ⟨h.isDerivation_plug hshape, hyield shape⟩

/-- A nonterminal that passes its sentence on has a spine around which nothing is derived. -/
lemma exists_silent_spine (h : TransGen g.Passes symbol inner) :
    ∃ frames, frames ≠ [] ∧ g.Spine symbol frames inner ∧
      ∀ shape, (plug frames shape).yield = shape.yield := by
  have hstep : ∀ {symbol inner : Symbol}, g.Passes symbol inner →
      ∃ frame : Frame, g.Spine symbol [frame] inner ∧
        ∀ shape, (frame.fill shape).yield = shape.yield := by
    rintro symbol inner ⟨_, before, after, hproduction, hvanish⟩
    obtain ⟨hbefore, hafter⟩ := List.forall_mem_append.1 hvanish
    obtain ⟨left, hleft, hleftEmpty⟩ :=
      exists_row fun other hother => vanishes_iff.1 (hbefore other hother)
    obtain ⟨right, hright, hrightEmpty⟩ :=
      exists_row fun other hother => vanishes_iff.1 (hafter other hother)
    refine ⟨⟨symbol, left, right⟩, .cons (by rwa [hleft, hright]) ?_ (.nil inner), fun shape => ?_⟩
    · exact List.forall_mem_append.2
        ⟨fun other hother => (hleftEmpty other hother).1,
          fun other hother => (hrightEmpty other hother).1⟩
    · have hleftYield : left.flatMap yield = [] :=
        List.flatMap_eq_nil_iff.2 fun other hother => (hleftEmpty other hother).2
      have hrightYield : right.flatMap yield = [] :=
        List.flatMap_eq_nil_iff.2 fun other hother => (hrightEmpty other hother).2
      rw [Frame.yield_fill, hleftYield, hrightYield, List.nil_append, List.append_nil]
  induction h with
  | single hpasses =>
    obtain ⟨frame, hspine, hyield⟩ := hstep hpasses
    exact ⟨[frame], by simp, hspine, hyield⟩
  | tail _ hpasses ih =>
    obtain ⟨frames, hnonempty, hspine, hyield⟩ := ih
    obtain ⟨frame, hlast, hlastYield⟩ := hstep hpasses
    refine ⟨frames ++ [frame], by simp, hspine.append hlast, fun shape => ?_⟩
    rw [plug_append, hyield]
    exact hlastYield shape

/-- The words of a cyclic nonterminal have infinitely many derivation trees. -/
theorem infinitelyAmbiguous_of_cycle (hcycle : TransGen g.Passes symbol symbol)
    (hshape : g.IsDerivation symbol shape) : g.InfinitelyAmbiguous symbol shape.yield := by
  obtain ⟨frames, hnonempty, hspine, hyield⟩ := exists_silent_spine hcycle
  apply Set.infinite_of_injective_forall_mem (plug_iterate_injective hnonempty shape)
  intro n
  induction n with
  | zero => exact ⟨hshape, rfl⟩
  | succ n ih =>
    obtain ⟨hderivation, hword⟩ := ih
    simp only [Function.iterate_succ_apply']
    exact ⟨hspine.isDerivation_plug hderivation, (hyield _).trans hword⟩

end Grammar

end ContextFree
