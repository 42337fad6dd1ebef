import ContextFree.Chart.Item
import ContextFree.Fault
import ContextFree.Queue

/-!
# One position of a chart

The set of items at an input position is grown from seeds by prediction and completion. Every
item that is added has its consequences queued: an unfinished item predicts the productions of
its next symbol, and a finished one advances every item that waits for its nonterminal at the
position where the match began. A nonterminal that matches the empty word is completed at the
position itself, possibly before the items that wait for it are there; such trees are kept
aside and offered to every later item.

The set is closed when the queue is empty. It is cut when an item is drawn while the set holds
more items than the limit allows. Items are reported when they are added, also one whose
completion is a fault.
-/
namespace ContextFree

/-- The items at one input position, in the order in which they were added. -/
structure Position where
  items : List Item
  /-- Whether the set was cut before it was closed. -/
  cut : Bool

inductive ChartEvent
  /-- An item was added to the set of its position. -/
  | added (item : Item)
  /-- A position was cut because it exceeds the limit. -/
  | truncated (position limit : Nat)
  /-- A position is done. -/
  | done (position size : Nat)

namespace ChartEvent

def level : ChartEvent → Level
  | added _ => .trace
  | truncated _ _ => .warn
  | done _ _ => .debug

def message (g : Grammar) : ChartEvent → String
  | added item => item.text g
  | truncated position limit =>
    s!"position {position} exceeds {limit} items; derivations are truncated"
  | done position size => s!"position {position}: {size} items"

end ChartEvent

namespace Grammar

/-- The left-hand side of the item that derives the start symbol: a symbol without a name. -/
def root (g : Grammar) : Symbol := g.fresh

/-- Fresh items for the productions of a symbol. -/
def predictions (g : Grammar) (position : Nat) (symbol : Symbol) : List Item :=
  (g.alternatives symbol).map fun rhs => .predict symbol rhs position

end Grammar

namespace Position

/-- The items of a row of positions from `position + 1` on, looked up by their position. -/
def itemsAt (later : List Position) (position finish : Nat) : List Item :=
  (later[finish - (position + 1)]?.map Position.items).getD []

/-- The items that wait for the nonterminal of a tree, moved over it. They stand at position
`finish`, which is the position itself, with the items found so far, or one of those to the
right. -/
def completed (later : List Position) (position : Nat) (items : OrderedSet Item) (finish : Nat)
    (tree : Tree) : List Item :=
  if finish = position then items.filterMap fun parent => parent.advance? tree
  else (itemsAt later position finish).filterMap fun parent => parent.advance? tree

theorem completed_eq (later : List Position) (position : Nat) (items : OrderedSet Item)
    (finish : Nat) (tree : Tree) : completed later position items finish tree =
      (if finish = position then items.toList else itemsAt later position finish).filterMap
        fun parent => parent.advance? tree := by
  unfold completed
  split <;> simp [OrderedSet.filterMap_eq]

/-- What follows from an item that has just been added to `items`: the tree of the empty word
that it completes, if any, and the items to be queued. -/
def consequences (g : Grammar) (later : List Position) (position : Nat)
    (items : OrderedSet Item) (empties : Array Tree) (item : Item) :
    Except Fault (Option Tree × List Item) :=
  match item.pending with
  | next :: _ =>
    .ok (none, g.predictions position next ++ (empties.filterMap item.advance?).toList)
  | [] =>
    if item.lhs = g.root then .ok (none, [])
    else do
      let tree ← item.complete
      return (if item.finish = position then some tree else none,
        completed later position items item.finish tree)

/-- Grows `items` by everything that follows from `queue`, and tells whether the set was cut.
Trees of the empty word found so far are in `empties`. An item is reported when it is added and a
cut when it is made, behind the `reports` made before. -/
def grow (g : Grammar) (limit : Nat) (later : List Position) (position : Nat)
    (reports : Array ChartEvent) (items : OrderedSet Item) (empties : Array Tree)
    (queue : Queue Item) : Logged ChartEvent (OrderedSet Item × Bool) :=
  match hdraw : queue.draw? with
  | none => ⟨reports.toList, .ok (items, false)⟩
  | some (item, rest) =>
    have := Queue.size_of_draw? hdraw
    if items.size ≤ limit then
      if hknown : items.contains item then
        grow g limit later position reports items empties rest
      else
        have hmore : (items.insert item).size = items.size + 1 := by
          rw [OrderedSet.size_insert, if_neg hknown]
        match consequences g later position (items.insert item) empties item with
        | .error fault => ⟨(reports.push (.added item)).toList, .error fault⟩
        | .ok (found, following) =>
          grow g limit later position (reports.push (.added item)) (items.insert item)
            (found.elim empties empties.push) (rest.append following)
    else ⟨(reports.push (.truncated position limit)).toList, .ok (items, true)⟩
termination_by (limit + 1 - items.size, queue.size)

/-- Closes one position over its seeds. Its items are reported one by one, its size in the end. -/
def build (g : Grammar) (limit : Nat) (later : List Position) (position : Nat)
    (seeds : List Item) : Logged ChartEvent Position := do
  let (items, cut) ← grow g limit later position #[] .empty #[] (.ofList seeds)
  Logged.emit (.done position items.size)
  return ⟨items.toList, cut⟩

end Position

end ContextFree
