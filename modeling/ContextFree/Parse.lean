import ContextFree.Chart.Position
import ContextFree.Tree.Order

/-!
# Parsing

A sentence is parsed by building its chart, which has one position for every place between two
tokens of the input, and one at either end. Positions are built from the end of the input to its
beginning. The last one starts from the item that derives the start symbol. Every other one
starts from the items to its right that wait for the terminal between them, moved over the leaf
of that terminal; a token that is unknown or a nonterminal matches nothing.

The derivations of the sentence are the trees matched by the finished root items at the first
position, in the order in which those items were added. A parse of an ambiguous grammar may go on
for ever, so the number of items at a position is bounded. If some position was cut, derivations
may be missing.
-/
namespace ContextFree

/-- The item that derives the start symbol from the right end of the input. -/
def Grammar.rootItem (g : Grammar) (start : Symbol) (finish : Nat) : Item :=
  .predict g.root [start] finish

/-- The items of the next position moved over a token. -/
def Position.scan (g : Grammar) (token : Option Symbol) (later : List Position) : List Item :=
  match token, later with
  | some symbol, next :: _ =>
    if g.isNonterminal symbol then []
    else next.items.filterMap fun item => item.advance? (g.leaf symbol)
  | _, _ => []

/-- Puts the position to the left of a token in front of the positions to its right. -/
def Position.prepend (g : Grammar) (limit : Nat) (token : Option Symbol × Nat)
    (later : List Position) : Logged ChartEvent (List Position) := do
  let here ← build g limit later token.2 (scan g token.1 later)
  return here :: later

/-- The positions of an input in ascending order. -/
def Grammar.chart (g : Grammar) (limit : Nat) (start : Symbol)
    (tokens : List (Option Symbol)) : Logged ChartEvent (List Position) := do
  let last ← Position.build g limit [] tokens.length [g.rootItem start tokens.length]
  tokens.zipIdx.foldrM (Position.prepend g limit) [last]

structure ParseLimits where
  /-- The number of items that a position may exceed by one at most. -/
  stateSize : Nat := 100
  deriving DecidableEq

structure Parse where
  /-- Derivation trees of the start symbol. -/
  trees : List Tree := []
  /-- Whether some position was cut, so that trees may be missing. -/
  truncated : Bool := false

namespace Parse

def isComplete (parse : Parse) : Bool := !parse.truncated

/-- Whether the sentence has more than one derivation. -/
def isAmbiguous (parse : Parse) : Bool := 1 < parse.trees.length

def inspect (parse : Parse) : String :=
  "Parse \x7b trees: " ++ Text.bracketed (parse.trees.map Tree.inspect) ++ ", truncated: " ++
    (if parse.truncated then "true" else "false") ++ " \x7d"

end Parse

namespace Grammar

/-- Whether an item is a finished derivation of the start symbol. -/
def isFinishedRoot (g : Grammar) (item : Item) : Bool := item.lhs = g.root && item.isFinished

def derivations (g : Grammar) (chart : List Position) : Except Fault (List Tree) :=
  let first := (chart.head?.map Position.items).getD []
  (first.filter g.isFinishedRoot).mapM Item.rootTree

/-- Parses a row of tokens. An unknown token is given as `none`. -/
def parse (g : Grammar) (limits : ParseLimits) (tokens : List (Option Symbol)) :
    Logged ChartEvent Parse :=
  match g.start? with
  | none => pure {}
  | some start => do
    let chart ← g.chart limits.stateSize start tokens
    let trees ← g.derivations chart
    return ⟨trees, chart.any Position.cut⟩

def parseSymbols (g : Grammar) (limits : ParseLimits) (symbols : List Symbol) :
    Logged ChartEvent Parse :=
  g.parse limits (symbols.map some)

def parseNames (g : Grammar) (limits : ParseLimits) (names : List String) :
    Logged ChartEvent Parse :=
  g.parse limits (names.map g.symbol?)

/-- Parses a sentence whose symbols are the characters of a text. -/
def parseText (g : Grammar) (limits : ParseLimits) (text : String) : Logged ChartEvent Parse :=
  g.parseNames limits (symbolNamesOf text)

end Grammar

end ContextFree
