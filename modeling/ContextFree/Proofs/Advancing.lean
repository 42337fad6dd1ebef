import ContextFree.Proofs.Spans

/-!
# Advancing over derivation trees

In a chart without cut positions an item can be moved over every derivation tree for the tokens
in front of it. Over a leaf it is moved by scanning. Over a node it is moved by predicting the
production of the node, moving the predicted item over the children from right to left, and
completing it; where the children begin the item that waits for the node has to be found, which
is what a closed position grants.
-/
namespace ContextFree

section Between

variable {tokens : List (Option Symbol)} {p q : ℕ}

lemma length_between (h : q ≤ tokens.length) : (between tokens p q).length = q - p := by
  rw [between, List.length_take, List.length_drop]
  omega

/-- Splitting the tokens of a span splits the span. -/
lemma exists_split_between {front back : List (Option Symbol)} (hpq : p ≤ q)
    (hq : q ≤ tokens.length) (h : front ++ back = between tokens p q) :
    ∃ mid, p ≤ mid ∧ mid ≤ q ∧ front = between tokens p mid ∧ back = between tokens mid q := by
  have hlength := congrArg List.length h
  rw [List.length_append, length_between hq] at hlength
  have hmid : p + front.length ≤ q := by omega
  have hle : p ≤ p + front.length := Nat.le_add_right p front.length
  have hfront : (between tokens p (p + front.length)).length = front.length := by
    rw [length_between (hmid.trans hq)]
    omega
  rw [← between_append hle hmid] at h
  obtain ⟨hfront_eq, hback_eq⟩ := List.append_inj h hfront.symm
  exact ⟨p + front.length, hle, hmid, hfront_eq, hback_eq⟩

end Between

namespace Position

variable {g : Grammar} {limit : ℕ} {start : Symbol} {tokens : List (Option Symbol)}
  {chart : List Position} {position finish : ℕ} {lhs : Symbol} {pending : List Symbol}
  {matched : List Shape}

/-- Whether an item with the given view stands at a position of a chart. -/
def Holds (chart : List Position) (position : ℕ) (dotted : Dotted) : Prop :=
  dotted ∈ (itemsIn chart position).map Item.dotted

lemma holds_of_in {item : Item} (h : item.In (itemsIn chart position)) :
    Holds chart position item.dotted := h

lemma exists_advance? {item : Item} {tree : Tree}
    (hitem : item.dotted = ⟨lhs, tree.symbol :: pending, finish, matched⟩) :
    ∃ moved, item.advance? tree = some moved ∧
      moved.dotted = ⟨lhs, pending, finish, tree.shape :: matched⟩ := by
  obtain ⟨rfl, hpending, rfl, rfl⟩ := Dotted.mk.inj hitem
  exact ⟨_, Item.advance?_eq_some_iff.2 ⟨pending, hpending, rfl⟩, rfl⟩

/-- A chart none of whose positions was cut. -/
structure Whole (g : Grammar) (limit : ℕ) (start : Symbol) (tokens : List (Option Symbol))
    (chart : List Position) : Prop where
  charts : Charts g limit start tokens 0 chart
  uncut : ∀ here ∈ chart, here.cut = false

namespace Whole

lemma closed_at (h : Whole g limit start tokens chart) (hle : position ≤ tokens.length) :
    (∀ item ∈ g.seeds start position (tokens.drop position) (chart.drop (position + 1)),
        item.In (itemsIn chart position)) ∧
      Closed g (chart.drop (position + 1)) position (itemsIn chart position) := by
  obtain ⟨here, hhere, hbuilt⟩ := h.charts.built_at hle
  rw [itemsIn_of_getElem? hhere]
  exact closed_of_build hbuilt (h.uncut here (List.mem_of_getElem? hhere))

lemma holds_root (h : Whole g limit start tokens chart) :
    Holds chart tokens.length ⟨g.root, [start], tokens.length, []⟩ := by
  exact holds_of_in ((h.closed_at le_rfl).1 (g.rootItem start tokens.length)
    ((mem_seeds le_rfl).2 (.inl ⟨rfl, rfl⟩)))

lemma holds_scan (h : Whole g limit start tokens chart) {symbol : Symbol}
    (htoken : tokens[position]? = some (some symbol)) (hterminal : symbol ∉ g.nonterminals)
    (hitem : Holds chart (position + 1) ⟨lhs, symbol :: pending, finish, matched⟩) :
    Holds chart position ⟨lhs, pending, finish, .leaf symbol :: matched⟩ := by
  have hle : position ≤ tokens.length := Nat.le_of_lt (List.getElem?_eq_some_iff.1 htoken).1
  obtain ⟨item, hmem, hdotted⟩ := List.mem_map.1 hitem
  have hwaits : item.dotted = ⟨lhs, (g.leaf symbol).symbol :: pending, finish, matched⟩ := hdotted
  obtain ⟨moved, hmoved, hview⟩ := exists_advance? hwaits
  rw [← itemsAt_drop chart (Nat.lt_succ_self position)] at hmem
  have hin := holds_of_in ((h.closed_at hle).1 moved
    ((mem_seeds hle).2 (.inr ⟨symbol, htoken, hterminal, item, hmem, hmoved⟩)))
  rwa [hview] at hin

lemma holds_predict (h : Whole g limit start tokens chart) (hle : position ≤ tokens.length)
    {next : Symbol} {rhs : List Symbol} (hproduction : ⟨next, rhs⟩ ∈ g.productions)
    (hitem : Holds chart position ⟨lhs, next :: pending, finish, matched⟩) :
    Holds chart position ⟨next, rhs.reverse, position, []⟩ := by
  obtain ⟨item, hmem, hdotted⟩ := List.mem_map.1 hitem
  obtain ⟨_, hpending, _, _⟩ := Dotted.mk.inj hdotted
  exact holds_of_in ((h.closed_at hle).2.predicted item hmem next pending hpending rhs
    (Grammar.mem_alternatives.2 hproduction))

lemma holds_complete (h : Whole g limit start tokens chart) {q : ℕ} (hle : position ≤ q)
    (hq : q ≤ tokens.length) {symbol : Symbol} (hroot : symbol ≠ g.root) {children : List Shape}
    (hchild : Holds chart position ⟨symbol, [], q, children⟩)
    (hparent : Holds chart q ⟨lhs, symbol :: pending, finish, matched⟩) :
    Holds chart position ⟨lhs, pending, finish, .node symbol children :: matched⟩ := by
  obtain ⟨child, hmem, hdotted⟩ := List.mem_map.1 hchild
  obtain ⟨hlhs, hfinished, hfinish, hmatched⟩ := Dotted.mk.inj hdotted
  obtain ⟨tree, hcomplete, hcompleted⟩ := (h.closed_at (hle.trans hq)).2.completed child hmem
    hfinished (hlhs ▸ hroot)
  have hshape : tree.shape = .node symbol children := by
    rw [Tree.shape_of_node hcomplete, hlhs, hmatched]
  have hsymbol : tree.symbol = symbol := by rw [← Tree.root_shape, hshape, Shape.root_node]
  obtain ⟨parent, hparent_mem, hparent_dotted⟩ := List.mem_map.1 hparent
  rw [← hsymbol] at hparent_dotted
  obtain ⟨moved, hmoved, hview⟩ := exists_advance? hparent_dotted
  have hstanding : parent ∈
      standing (chart.drop (position + 1)) position (itemsIn chart position) child.finish := by
    rw [hfinish]
    rcases Nat.eq_or_lt_of_le hle with rfl | hlt
    · rwa [standing_self]
    · rw [standing_of_ne _ (Nat.ne_of_gt hlt), itemsAt_drop chart hlt]
      exact hparent_mem
  have hin := holds_of_in (hcompleted parent hstanding moved hmoved)
  rwa [hview, hshape] at hin

end Whole

/-- Every item that waits for the root of a shape is moved over it by the tokens it derives. -/
def Moves (tokens : List (Option Symbol)) (chart : List Position) (shape : Shape) : Prop :=
  ∀ p q lhs pending finish matched, p ≤ q → q ≤ tokens.length →
    shape.yield.map some = between tokens p q →
    Holds chart q ⟨lhs, shape.root :: pending, finish, matched⟩ →
    Holds chart p ⟨lhs, pending, finish, shape :: matched⟩

lemma moves_row {row : List Shape} (hrow : ∀ shape ∈ row, Moves tokens chart shape) {p q : ℕ}
    (hpq : p ≤ q) (hq : q ≤ tokens.length)
    (hyield : (row.flatMap Shape.yield).map some = between tokens p q)
    (hitem : Holds chart q ⟨lhs, (row.map Shape.root).reverse ++ pending, finish, matched⟩) :
    Holds chart p ⟨lhs, pending, finish, row ++ matched⟩ := by
  induction row generalizing p pending with
  | nil =>
    have hempty : q - p = 0 := by
      rw [← length_between hq, ← hyield]
      rfl
    obtain rfl : p = q := by omega
    exact hitem
  | cons shape row ih =>
    obtain ⟨hshape, hrow⟩ := List.forall_mem_cons.1 hrow
    rw [List.flatMap_cons, List.map_append] at hyield
    obtain ⟨mid, hpmid, hmidq, hfront, hback⟩ := exists_split_between hpq hq hyield
    rw [List.map_cons, List.reverse_cons, List.append_assoc] at hitem
    have hmid : Holds chart mid ⟨lhs, shape.root :: pending, finish, row ++ matched⟩ :=
      ih hrow hmidq hback hitem
    exact hshape p mid lhs pending finish (row ++ matched) hpmid (hmidq.trans hq) hfront hmid

/-- In a whole chart items are moved over every valid shape. -/
theorem Whole.moves (h : Whole g limit start tokens chart) (hroot : g.root ∉ g.nonterminals)
    {shape : Shape} (hvalid : g.Valid shape) : Moves tokens chart shape := by
  induction hvalid with
  | leaf symbol hterminal =>
    intro p q lhs pending finish matched hpq hq hyield hitem
    have hlength : q - p = 1 := by
      rw [← length_between hq, ← hyield]
      rfl
    obtain rfl : q = p + 1 := by omega
    have hlt : p < tokens.length := hq
    rw [between_succ (List.getElem?_eq_getElem hlt)] at hyield
    have htoken : tokens[p]? = some (some symbol) := by
      rw [List.getElem?_eq_getElem hlt, ← List.singleton_inj.1 hyield]
    exact h.holds_scan htoken hterminal hitem
  | node symbol children hproduction _ ih =>
    intro p q lhs pending finish matched hpq hq hyield hitem
    have hsymbol : symbol ≠ g.root := by
      rintro rfl
      exact hroot (Grammar.lhs_mem_nonterminals hproduction)
    have hpredicted := h.holds_predict hq hproduction hitem
    rw [Shape.yield_node] at hyield
    rw [← List.append_nil (children.map Shape.root).reverse] at hpredicted
    have hchild := moves_row ih hpq hq hyield hpredicted
    rw [List.append_nil] at hchild
    exact h.holds_complete hpq hq hsymbol hchild hitem

end Position

end ContextFree
