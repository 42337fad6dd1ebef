import ContextFree.Parse

/-!
# Parsing under checked contracts

The parser relies on contracts. Only an unfinished item is moved or asked for its next symbol,
only a finished one is completed, and rows are looked up only at places they have. An `Item`
cannot break them, since it drops the symbols it has matched, and a list of positions is
looked up with an answer for every place.

This is the same parser on items that can break every contract. Such an item keeps its whole
right-hand side and counts the symbols still pending, and the chart is a row of sets with one
place for every position, filled from its end. Every contract is tested where it is relied
upon. A test that fails is a `Breach` and ends the parse.
-/
namespace ContextFree

/-- A contract of the parser that was broken. -/
inductive Breach
  | advancingFinished
  | nextOfFinished
  | completingUnfinished
  | completingUnfinishedRoot
  /-- A row was asked for a place that it does not have. -/
  | outOfRange (index length : Nat)
  deriving DecidableEq

namespace Breach

def message : Breach → String
  | advancingFinished => "advancing a finished item"
  | nextOfFinished => "next symbol of a finished item"
  | completingUnfinished => "completing an unfinished item"
  | completingUnfinishedRoot => "completing an unfinished root item"
  | outOfRange index length =>
    s!"index out of bounds: the len is {length} but the index is {index}"

end Breach

/-- What keeps a checked parse from its outcome. -/
inductive Trap
  | breach (breach : Breach)
  | fault (fault : Fault)
  deriving DecidableEq

/-- An item that keeps the right-hand side of its production. -/
structure Counted where
  lhs : Symbol
  rhs : List Symbol
  /-- The number of symbols still to be matched. -/
  pending : Nat
  /-- The right boundary of the match. -/
  finish : Nat
  /-- Matched trees, from left to right. -/
  parsed : List Tree

namespace Checked

variable {α : Type}

def elementAt (row : List α) (index : Nat) : Except Trap α :=
  match row[index]? with
  | some a => .ok a
  | none => .error (.breach (.outOfRange index row.length))

/-- The row with another element at one of its places. -/
def storeAt (row : List α) (index : Nat) (a : α) : Except Trap (List α) :=
  if index < row.length then .ok (row.set index a)
  else .error (.breach (.outOfRange index row.length))

end Checked

namespace Counted

open Checked

def predict (lhs : Symbol) (rhs : List Symbol) (finish : Nat) : Counted :=
  ⟨lhs, rhs, rhs.length, finish, []⟩

def isFinished (item : Counted) : Bool := item.pending = 0

def waitsFor (item : Counted) (symbol : Symbol) : Except Trap Bool :=
  if item.isFinished then .ok false
  else do
    let next ← elementAt item.rhs (item.pending - 1)
    return next = symbol

/-- The item moved over its next symbol, whatever the tree is for. -/
def advance (item : Counted) (tree : Tree) : Except Trap Counted :=
  if item.isFinished then .error (.breach .advancingFinished)
  else .ok { item with pending := item.pending - 1, parsed := tree :: item.parsed }

def nextSymbol (item : Counted) : Except Trap Symbol :=
  if item.isFinished then .error (.breach .nextOfFinished)
  else elementAt item.rhs (item.pending - 1)

def complete (item : Counted) : Except Trap Tree :=
  if item.isFinished then (Tree.node item.lhs item.parsed).mapError .fault
  else .error (.breach .completingUnfinished)

def rootTree (item : Counted) : Except Trap Tree :=
  if item.isFinished then
    match item.parsed with
    | [tree] => .ok tree
    | trees => .error (.fault (.rootArity trees.length))
  else .error (.breach .completingUnfinishedRoot)

/-- The part of the right-hand side that an item shows in front of its dot. -/
def unmatched (item : Counted) : Except Trap (List Symbol) :=
  if item.pending ≤ item.rhs.length then .ok (item.rhs.take item.pending)
  else .error (.breach (.outOfRange item.pending item.rhs.length))

/-- The text of an item: the part in front of the dot is cut from its right-hand side, the part
behind the dot are the roots of its trees. -/
def text (g : Grammar) (item : Counted) : Except Trap String := do
  let unmatched ← item.unmatched
  return Item.text g ⟨item.lhs, unmatched.reverse, item.finish, item.parsed⟩

instance : BEq Counted where
  beq a b := decide (a.finish = b.finish) && decide (a.pending = b.pending) &&
    decide (a.lhs = b.lhs) && decide (a.rhs = b.rhs) &&
    decide (a.parsed.map Tree.shape = b.parsed.map Tree.shape)

@[simp] theorem beq_iff {a b : Counted} : (a == b) = true ↔ a.finish = b.finish ∧
    a.pending = b.pending ∧ a.lhs = b.lhs ∧ a.rhs = b.rhs ∧
    a.parsed.map Tree.shape = b.parsed.map Tree.shape := by
  simp [BEq.beq, and_assoc]

end Counted

namespace Checked

/-- Moves the items that wait for a symbol over a tree. -/
def advanceAll (symbol : Symbol) (tree : Tree) : (parents : List Counted) →
    Except Trap (List Counted)
  | [] => .ok []
  | parent :: parents => do
    if ← parent.waitsFor symbol then
      let moved ← parent.advance tree
      let others ← advanceAll symbol tree parents
      return moved :: others
    else advanceAll symbol tree parents

/-- The items that stand at `finish`, which is the position itself, with `items`, or another one
of the chart. -/
def standing (chart : List (List Counted)) (position : Nat) (items : List Counted)
    (finish : Nat) : Except Trap (List Counted) :=
  if finish = position then .ok items else elementAt chart finish

/-- What follows from a finished item: its tree, if that is for the empty word, and the items
that are moved over it. -/
def completions (chart : List (List Counted)) (position : Nat) (items : List Counted)
    (item : Counted) : Except Trap (Option Tree × List Counted) := do
  let tree ← item.complete
  let parents ← standing chart position items item.finish
  let moved ← advanceAll item.lhs tree parents
  return (if item.finish = position then some tree else none, moved)

/-- What follows from an unfinished item: the productions of its next symbol, and the item moved
over the trees of the empty word for that symbol. -/
def predictions (g : Grammar) (position : Nat) (empties : List Tree) (item : Counted) :
    Except Trap (List Counted) := do
  let next ← item.nextSymbol
  match g.alternatives? next with
  | none => return []
  | some alternatives =>
    let moved ← (empties.filter fun tree => tree.symbol = next).mapM item.advance
    return (alternatives.map fun rhs => .predict next rhs position) ++ moved

/-- What follows from an item that has just been added to `items`, which is shown first. -/
def consequences (g : Grammar) (chart : List (List Counted)) (position : Nat)
    (items : List Counted) (empties : List Tree) (item : Counted) :
    Except Trap (Option Tree × List Counted) := do
  let _ ← item.unmatched
  if item.isFinished then
    if item.lhs = g.root then return (none, []) else completions chart position items item
  else
    let following ← predictions g position empties item
    return (none, following)

/-- Grows `items` by everything that follows from `queue`, and tells whether the set was cut. -/
def close (g : Grammar) (limit : Nat) (chart : List (List Counted)) (position : Nat)
    (items : List Counted) (empties : List Tree) (queue : List Counted) :
    Except Trap (List Counted × Bool) :=
  match queue with
  | [] => .ok (items, false)
  | item :: rest =>
    if items.length ≤ limit then
      if items.contains item then close g limit chart position items empties rest
      else do
        let (found, following) ← consequences g chart position (items ++ [item]) empties item
        close g limit chart position (items ++ [item]) (empties ++ found.toList)
          (rest ++ following)
    else .ok (items, true)
termination_by (limit + 1 - items.length, queue.length)

/-- The items that a position starts from. -/
def seeds (g : Grammar) (start : Symbol) (tokens : List (Option Symbol))
    (chart : List (List Counted)) (position : Nat) : Except Trap (List Counted) :=
  if position = tokens.length then .ok [.predict g.root [start] position]
  else do
    match ← elementAt tokens position with
    | none => return []
    | some symbol =>
      if g.isNonterminal symbol then return []
      else
        let parents ← elementAt chart (position + 1)
        advanceAll symbol (g.leaf symbol) parents

/-- Builds the set of a position and stores it in the chart. The flag tells whether some set
was cut. -/
def fill (g : Grammar) (limit : Nat) (start : Symbol) (tokens : List (Option Symbol))
    (state : List (List Counted) × Bool) (position : Nat) :
    Except Trap (List (List Counted) × Bool) := do
  let seeds ← seeds g start tokens state.1 position
  let (items, cut) ← close g limit state.1 position [] [] seeds
  let chart ← storeAt state.1 position items
  return (chart, state.2 || cut)

end Checked

open Checked in
/-- Parses a row of tokens with every contract tested. The left-hand side of the root item has to
be a symbol, whether or not there is anything to parse. -/
def Grammar.checkedParse (g : Grammar) (limits : ParseLimits) (tokens : List (Option Symbol)) :
    Except Trap Parse := do
  let root ← (Symbol.ofIndex g.symbolCount).mapError .fault
  match g.start? with
  | none => return {}
  | some start =>
    let places := tokens.length + 1
    let (chart, truncated) ← (List.range places).reverse.foldlM
      (fill g limits.stateSize start tokens) (List.replicate places [], false)
    let first ← elementAt chart 0
    let trees ← (first.filter fun item => item.lhs = root && item.isFinished).mapM
      Counted.rootTree
    return ⟨trees, truncated⟩

end ContextFree
