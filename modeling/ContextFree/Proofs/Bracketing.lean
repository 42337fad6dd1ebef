import ContextFree.Proofs.Interning
import ContextFree.Proofs.Separating
import ContextFree.Proofs.Shapes
import ContextFree.Tree.Order

/-!
# The bracketed form tells trees apart

A name ends where the first space or parenthesis stands, and only a nonterminal has an opening
parenthesis behind its name. So a bracketed form can be read off the front of a text, as long as
what follows it starts with a space or a closing parenthesis, and that is what follows a tree in
a row of children. Reading off one tree leaves a text of the same kind, hence a row of children is
known from its text, and a tree is known from its bracketed form.
-/
namespace ContextFree

/-- Whether a character may stand in a name of a bracketed form. -/
def isNameChar (c : Char) : Bool := c != ' ' && c != '(' && c != ')'

/-- A name that is seen in a bracketed form. -/
structure Visible (name : String) : Prop where
  nonempty : name ≠ ""
  chars : ∀ c ∈ name.toList, isNameChar c = true

/-- A text that may stand behind a tree in a bracketed form. -/
def IsTail (rest : List Char) : Prop := ∀ c ∈ rest.head?, c = ' ' ∨ c = ')'

/-- A name is read off the front of a text that goes on with another character. -/
lemma eq_of_name_append {name other : String} {rest more : List Char}
    (hname : Visible name) (hother : Visible other) (hrest : ∀ c ∈ rest.head?, isNameChar c = false)
    (hmore : ∀ c ∈ more.head?, isNameChar c = false)
    (h : name.toList ++ rest = other.toList ++ more) : name = other ∧ rest = more := by
  have hend : ∀ {rest : List Char}, (∀ c ∈ rest.head?, isNameChar c = false) →
      rest.takeWhile isNameChar = [] := by
    intro rest hrest
    cases rest with
    | nil => rfl
    | cons c rest => rw [List.takeWhile_cons_of_neg (by simp [hrest c rfl])]
  have htake := congrArg (List.takeWhile isNameChar) h
  rw [List.takeWhile_append_of_pos hname.chars, List.takeWhile_append_of_pos hother.chars,
    hend hrest, hend hmore, List.append_nil, List.append_nil] at htake
  rw [htake] at h
  exact ⟨String.toList_inj.1 htake, List.append_cancel_left h⟩

namespace IsTail

variable {rest : List Char}

lemma nil : IsTail [] := fun _ hc => nomatch hc

lemma space (rest : List Char) : IsTail (' ' :: rest) := fun _ hc => .inl (Option.some.inj hc).symm

lemma close (rest : List Char) : IsTail (')' :: rest) := fun _ hc => .inr (Option.some.inj hc).symm

lemma isNameChar_eq_false (h : IsTail rest) : ∀ c ∈ rest.head?, isNameChar c = false := by
  intro c hc
  obtain rfl | rfl := h c hc
  · decide
  · decide

lemma ne_open (h : IsTail rest) (more : List Char) : rest ≠ '(' :: more := by
  rintro rfl
  exact absurd (h '(' rfl) (by decide)

end IsTail

/-- A symbol whose name is seen in a bracketed form. -/
def Grammar.Shows (g : Grammar) (symbol : Symbol) : Prop :=
  ∃ name, g.name? symbol = some name ∧ Visible name

namespace Shape

variable {g : Grammar} {symbol : Symbol} {children as bs : List Shape} {name : String}
  {rest more : List Char}

def displayed (g : Grammar) (shape : Shape) : List Char := (shape.display g).toList

lemma displayed_leaf (h : g.name? symbol = some name) :
    (leaf symbol).displayed g = name.toList := by
  rw [displayed, display, Grammar.nameOr_eq h]

lemma displayed_node (h : g.name? symbol = some name) (children : List Shape)
    (rest : List Char) : (node symbol children).displayed g ++ rest =
      name.toList ++ '(' :: ([' '].intercalate (children.map (displayed g)) ++ ')' :: rest) := by
  have hrow : (" ".intercalate (children.map (display g))).toList =
      [' '].intercalate (children.map (displayed g)) := by
    rw [String.toList_intercalate, List.map_map]
    rfl
  rw [displayed, display, Grammar.nameOr_eq h, displays_eq_map]
  simp only [String.toList_append, hrow, List.append_assoc]
  rfl

lemma exists_displayed_eq_cons {shape : Shape} (h : g.Shows shape.root) :
    ∃ c text, shape.displayed g = c :: text ∧ isNameChar c = true := by
  obtain ⟨name, hname, hnonempty, hchars⟩ := h
  obtain ⟨c, text, hcons⟩ : ∃ c text, name.toList = c :: text :=
    List.exists_cons_of_ne_nil fun hnil => hnonempty (String.toList_eq_nil_iff.1 hnil)
  have hc := hchars c (hcons ▸ List.mem_cons_self)
  cases shape with
  | leaf symbol => exact ⟨c, text, (displayed_leaf hname).trans hcons, hc⟩
  | node symbol children =>
    have hnode := displayed_node hname children []
    rw [List.append_nil, hcons] at hnode
    exact ⟨c, _, hnode, hc⟩

/-- All symbols of the shape have a name that is seen. -/
def Shown (g : Grammar) (shape : Shape) : Prop := ∀ part ∈ shape.parts, g.Shows part.root

lemma Shown.root {shape : Shape} (h : shape.Shown g) : g.Shows shape.root := h _ shape.mem_parts

lemma Shown.of_leaf (h : (leaf symbol).Shown g) : g.Shows symbol := h.root

lemma Shown.of_node (h : (node symbol children).Shown g) : g.Shows symbol := h.root

lemma Shown.of_mem (h : (node symbol children).Shown g) : ∀ child ∈ children, child.Shown g := by
  rw [Shown, parts_node, List.forall_mem_cons, List.forall_mem_flatMap] at h
  exact h.2

/-- A shape is read off the front of every text that it stands in. -/
def ReadsOff (g : Grammar) (a : Shape) : Prop :=
  ∀ {b : Shape} {rest more : List Char}, b.Shown g → IsTail rest → IsTail more →
    a.displayed g ++ rest = b.displayed g ++ more → a = b ∧ rest = more

lemma isTail_row (shapes : List Shape) (rest : List Char) :
    IsTail (shapes.flatMap ([' '] ++ displayed g ·) ++ ')' :: rest) := by
  cases shapes with
  | nil => exact .close rest
  | cons shape shapes => exact .space _

/-- The trees of a row are read off one after another. -/
lemma eq_of_row (has : ∀ a ∈ as, a.ReadsOff g) (hbs : ∀ b ∈ bs, b.Shown g)
    (h : as.flatMap ([' '] ++ displayed g ·) ++ ')' :: rest =
      bs.flatMap ([' '] ++ displayed g ·) ++ ')' :: more) : as = bs ∧ rest = more := by
  induction as generalizing bs with
  | nil =>
    cases bs with
    | nil => exact ⟨rfl, (List.cons.inj h).2⟩
    | cons b bs => exact absurd (List.cons.inj h).1 (by decide)
  | cons a as ih =>
    cases bs with
    | nil => exact absurd (List.cons.inj h).1 (by decide)
    | cons b bs =>
      obtain ⟨ha, htrees⟩ := List.forall_mem_cons.1 has
      obtain ⟨hb, hothers⟩ := List.forall_mem_cons.1 hbs
      rw [List.flatMap_cons, List.flatMap_cons, List.append_assoc, List.append_assoc,
        List.append_assoc, List.append_assoc] at h
      obtain ⟨rfl, hrow⟩ := ha hb (isTail_row as rest) (isTail_row bs more)
        (List.append_cancel_left h)
      obtain ⟨rfl, hrest⟩ := ih htrees hothers hrow
      exact ⟨rfl, hrest⟩

/-- The children of a node are known from what is between its parentheses. -/
lemma eq_of_children (has : ∀ a ∈ as, a.ReadsOff g) (hroots : ∀ a ∈ as, g.Shows a.root)
    (hbs : ∀ b ∈ bs, b.Shown g)
    (h : [' '].intercalate (as.map (displayed g)) ++ ')' :: rest =
      [' '].intercalate (bs.map (displayed g)) ++ ')' :: more) : as = bs ∧ rest = more := by
  -- a row without trees is closed at once, where a tree would begin with a name
  have hclosed : ∀ {shape : Shape} {text rest more : List Char}, g.Shows shape.root →
      ')' :: rest ≠ shape.displayed g ++ text ++ more := by
    intro shape text rest more hshape heq
    obtain ⟨c, first, hcons, hc⟩ := exists_displayed_eq_cons hshape
    rw [hcons] at heq
    exact absurd ((List.cons.inj heq).1 ▸ hc) (by decide)
  cases as with
  | nil =>
    cases bs with
    | nil => exact ⟨rfl, (List.cons.inj h).2⟩
    | cons b bs =>
      rw [List.map_cons, intercalate_cons] at h
      exact absurd h (hclosed (hbs b List.mem_cons_self).root)
  | cons a as =>
    cases bs with
    | nil =>
      rw [List.map_cons, intercalate_cons] at h
      exact absurd h.symm (hclosed (hroots a List.mem_cons_self))
    | cons b bs =>
      -- with a space in front, the first tree stands like all others
      apply eq_of_row has hbs
      rw [List.map_cons, List.map_cons, intercalate_cons, intercalate_cons, List.flatMap_map,
        List.flatMap_map] at h
      exact congrArg (' ' :: ·) h

/-- A shape is read off by its own structure: its name first, and its children one by one behind
the parenthesis. -/
theorem readsOff {a : Shape} (ha : a.Shown g) : a.ReadsOff g := by
  induction a with
  | leaf symbol =>
    intro b rest more hb hrest hmore h
    obtain ⟨name, hname, hvisible⟩ := ha.of_leaf
    rw [displayed_leaf hname] at h
    cases b with
    | leaf symbol' =>
      obtain ⟨other, hother, hvisible'⟩ := hb.of_leaf
      rw [displayed_leaf hother] at h
      obtain ⟨rfl, hrest⟩ := eq_of_name_append hvisible hvisible'
        hrest.isNameChar_eq_false hmore.isNameChar_eq_false h
      exact ⟨congrArg leaf (NameTable.eq_of_name?_eq hname hother), hrest⟩
    | node symbol' children' =>
      obtain ⟨other, hother, hvisible'⟩ := hb.of_node
      rw [displayed_node hother] at h
      obtain ⟨_, hopen⟩ := eq_of_name_append hvisible hvisible'
        hrest.isNameChar_eq_false (by simp [isNameChar]) h
      -- no parenthesis opens behind a leaf
      exact absurd hopen (hrest.ne_open _)
  | node symbol children ih =>
    intro b rest more hb hrest hmore h
    obtain ⟨name, hname, hvisible⟩ := ha.of_node
    rw [displayed_node hname] at h
    cases b with
    | leaf symbol' =>
      obtain ⟨other, hother, hvisible'⟩ := hb.of_leaf
      rw [displayed_leaf hother] at h
      obtain ⟨_, hopen⟩ := eq_of_name_append hvisible hvisible'
        (by simp [isNameChar]) hmore.isNameChar_eq_false h
      exact absurd hopen.symm (hmore.ne_open _)
    | node symbol' children' =>
      obtain ⟨other, hother, hvisible'⟩ := hb.of_node
      rw [displayed_node hother] at h
      obtain ⟨rfl, hrow⟩ := eq_of_name_append hvisible hvisible'
        (by simp [isNameChar]) (by simp [isNameChar]) h
      have hread : ∀ child ∈ children, child.ReadsOff g := fun child hchild =>
        ih child hchild (ha.of_mem child hchild)
      have hroots : ∀ child ∈ children, g.Shows child.root := fun child hchild =>
        (ha.of_mem child hchild).root
      obtain ⟨rfl, hrest⟩ := eq_of_children hread hroots hb.of_mem (List.cons.inj hrow).2
      exact ⟨congrArg (node · children) (NameTable.eq_of_name?_eq hname hother), hrest⟩

end Shape

namespace Tree

variable {g : Grammar} {a b : Tree}

/-- Trees whose symbols have proper names are equal exactly when their bracketed forms are. -/
theorem display_eq_iff (ha : a.shape.Shown g) (hb : b.shape.Shown g) :
    a.display g = b.display g ↔ (a == b) = true := by
  rw [beq_iff]
  constructor
  · intro h
    have htext : a.shape.displayed g ++ [] = b.shape.displayed g ++ [] :=
      congrArg (String.toList · ++ []) h
    exact (Shape.readsOff ha hb .nil .nil htext).1
  · intro h
    rw [display, display, h]

/-- A grammar with a name that another name begins with: `S → Sa a`. -/
def prefixes : Grammar := ({} : Grammar).addProduction "S" ["Sa", "a"]

/-- A tree whose last child is a nonterminal without children. -/
def endsInNode (name : String) : Tree :=
  nonterminal ⟨0⟩ [terminal ⟨1⟩ name, nonterminal ⟨2⟩ [] ⟨2, 1, 0, ""⟩] ⟨3, 2, 1, name⟩

/-- The same tree with a leaf for its last child. -/
def endsInLeaf (name : String) : Tree :=
  nonterminal ⟨0⟩ [terminal ⟨1⟩ name, terminal ⟨2⟩ ""] ⟨2, 2, 2, name⟩

/-- A leaf and a nonterminal without children are told apart, and the names of leaves are not
seen. -/
theorem display_eq_iff_prefixes :
    (endsInNode "x").display prefixes = "S(Sa a())" ∧
      (endsInLeaf "x").display prefixes = "S(Sa a)" ∧
      (endsInNode "x" == endsInLeaf "x") = false ∧ (endsInNode "x" == endsInNode "y") = true := by
  have hS : prefixes.Shows ⟨0⟩ := ⟨"S", by decide, by decide, by simp [isNameChar]⟩
  have hSa : prefixes.Shows ⟨1⟩ := ⟨"Sa", by decide, by decide, by simp [isNameChar]⟩
  have ha : prefixes.Shows ⟨2⟩ := ⟨"a", by decide, by decide, by simp [isNameChar]⟩
  have hnode : ∀ name, (endsInNode name).shape.Shown prefixes := by
    simp [endsInNode, Shape.Shown, hS, hSa, ha]
  have hleaf : ∀ name, (endsInLeaf name).shape.Shown prefixes := by
    simp [endsInLeaf, Shape.Shown, hS, hSa, ha]
  have hx : (endsInNode "x").display prefixes = "S(Sa a())" := by decide +kernel
  have hy : (endsInNode "y").display prefixes = "S(Sa a())" := by decide +kernel
  have hshort : (endsInLeaf "x").display prefixes = "S(Sa a)" := by decide +kernel
  refine ⟨hx, hshort, ?_, ?_⟩
  · rw [← Bool.not_eq_true, ← display_eq_iff (hnode "x") (hleaf "x"), hx, hshort]
    decide
  · rw [← display_eq_iff (hnode "x") (hnode "y"), hx, hy]

end Tree

end ContextFree
