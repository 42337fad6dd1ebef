import ContextFree.Tree.Order

/-!
# Chart items

An item is a production that has been matched from its right end up to some point. It holds
the symbols that are still pending, the next one first, and the trees matched so far from left
to right, so the right-hand side of the production is the pending symbols in reverse followed
by the roots of the trees. Its `finish` is the input position where the match began; the
position where the match stands is that of the chart set the item belongs to.

Items are compared with their trees, by shape: two matches of one production that differ in
any subtree are different items.
-/
namespace ContextFree

/-- A production matched from the right up to some point. -/
structure Item where
  lhs : Symbol
  /-- Symbols still to be matched, from right to left. -/
  pending : List Symbol
  /-- The right boundary of the match. -/
  finish : Nat
  /-- Matched trees, from left to right. -/
  parsed : List Tree

namespace Item

def rhs (item : Item) : List Symbol := item.pending.reverse ++ item.parsed.map Tree.symbol

/-- Whether nothing is left to be matched. -/
def isFinished (item : Item) : Bool := item.pending.isEmpty

/-- A production with nothing matched yet. -/
def predict (lhs : Symbol) (rhs : List Symbol) (finish : Nat) : Item :=
  ⟨lhs, rhs.reverse, finish, []⟩

/-- The item moved over its next symbol by a tree for that symbol. -/
def advance? (item : Item) (tree : Tree) : Option Item :=
  match item.pending with
  | [] => none
  | next :: pending =>
    if next = tree.symbol then some { item with pending, parsed := tree :: item.parsed }
    else none

/-- The tree of a finished item. -/
def complete (item : Item) : Except Fault Tree := Tree.node item.lhs item.parsed

/-- The one tree matched by a finished root item. -/
def rootTree (item : Item) : Except Fault Tree :=
  match item.parsed with
  | [tree] => .ok tree
  | trees => .error (.rootArity trees.length)

instance : BEq Item where
  beq a b := decide (a.lhs = b.lhs) && decide (a.finish = b.finish) &&
    decide (a.pending = b.pending) && decide (a.parsed.map Tree.shape = b.parsed.map Tree.shape)

@[simp] theorem beq_iff {a b : Item} : (a == b) = true ↔ a.lhs = b.lhs ∧ a.finish = b.finish ∧
    a.pending = b.pending ∧ a.parsed.map Tree.shape = b.parsed.map Tree.shape := by
  simp [BEq.beq, and_assoc]

instance : EquivBEq Item where
  rfl := beq_iff.2 ⟨rfl, rfl, rfl, rfl⟩
  symm h := by
    obtain ⟨hlhs, hfinish, hpending, hparsed⟩ := beq_iff.1 h
    exact beq_iff.2 ⟨hlhs.symm, hfinish.symm, hpending.symm, hparsed.symm⟩
  trans h h' := by
    obtain ⟨hlhs, hfinish, hpending, hparsed⟩ := beq_iff.1 h
    obtain ⟨hlhs', hfinish', hpending', hparsed'⟩ := beq_iff.1 h'
    exact beq_iff.2 ⟨hlhs.trans hlhs', hfinish.trans hfinish', hpending.trans hpending',
      hparsed.trans hparsed'⟩

/-- The digest of an item is made from everything that equality looks at. -/
def digest (item : Item) : Nat :=
  let key := Digest.mix (Digest.mix 3 item.lhs.id) item.finish
  let key := item.pending.foldl (fun key symbol => Digest.mix key symbol.id) key
  item.parsed.foldl (fun key tree => Digest.mix key tree.digest)
    (Digest.mix key item.parsed.length)

theorem digest_congr {a b : Item} (h : (a == b) = true) : a.digest = b.digest := by
  obtain ⟨hlhs, hfinish, hpending, hparsed⟩ := beq_iff.1 h
  have hdigests : a.parsed.map Tree.digest = b.parsed.map Tree.digest := by
    simpa only [List.map_map, Function.comp_def, ← Tree.digest_eq]
      using congrArg (List.map Shape.digest) hparsed
  have hlength : a.parsed.length = b.parsed.length := by
    simpa using congrArg List.length hparsed
  simp only [digest, hlhs, hfinish, hpending, hlength,
    ← List.foldl_map (f := Tree.digest) (g := Digest.mix), hdigests]

instance : HasDigest Item where
  digest := digest
  digest_congr := digest_congr

@[simp] theorem rhs_predict (lhs : Symbol) (rhs : List Symbol) (finish : Nat) :
    (predict lhs rhs finish).rhs = rhs := by
  simp [predict, Item.rhs]

theorem advance?_eq_some_iff {item moved : Item} {tree : Tree} :
    item.advance? tree = some moved ↔ ∃ pending, item.pending = tree.symbol :: pending ∧
      moved = { item with pending, parsed := tree :: item.parsed } := by
  cases hpending : item.pending with
  | nil => simp [advance?, hpending]
  | cons next pending =>
    by_cases h : next = tree.symbol
    · simp [advance?, hpending, h, eq_comm]
    · simp [advance?, hpending, h]

theorem rhs_of_advance? {item moved : Item} {tree : Tree} (h : item.advance? tree = some moved) :
    moved.rhs = item.rhs := by
  obtain ⟨pending, hpending, rfl⟩ := advance?_eq_some_iff.1 h
  simp [Item.rhs, hpending]

/-- The text of a symbol without a name in the text of an item. -/
def unnamed : String := "<root>"

/-- The text of an item: its production with a dot where the match stands, and its `finish`. -/
def text (g : Grammar) (item : Item) : String :=
  let words (symbols : List Symbol) : String :=
    String.join (symbols.map fun symbol => " " ++ g.nameOr unnamed symbol)
  "(" ++ g.nameOr unnamed item.lhs ++ " ->" ++ words item.pending.reverse ++ " ." ++
    words (item.parsed.map Tree.symbol) ++ s!", {item.finish})"

end Item

end ContextFree
