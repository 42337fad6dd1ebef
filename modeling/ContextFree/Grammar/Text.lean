import ContextFree.Grammar.Basic

/-!
# Grammars and texts

A production can be given by names, which are interned from left to right, the left-hand side
first. A whole rule can be given as text: alternatives are separated by a bar, every character
is a symbol, and blanks and the empty-word sign are skipped, so an alternative without further
characters is the empty one. A chain lists rules with their alternatives, which are added by a
builder that knows the symbol of the rule at hand; a rule without alternatives only makes its name
known.

The listing of a grammar has one line for each rule: the nonterminal, an arrow, and the
alternatives separated by bars. The inspection text shows the name table and the rules by
symbol. Strings stand between double quotes there: a quote, a backslash, a tab, a line break, a
carriage return and the null character are written with a backslash and one more character,
control characters and blanks other than the space by their code point in hexadecimal, and
everything else stands for itself.
-/
namespace ContextFree

namespace Text

/-- The ranges of the property `White_Space`, in ascending order. -/
def blankRanges : List (Nat × Nat) :=
  [(0x09, 0x0D), (0x20, 0x20), (0x85, 0x85), (0xA0, 0xA0), (0x1680, 0x1680),
   (0x2000, 0x200A), (0x2028, 0x2029), (0x202F, 0x202F), (0x205F, 0x205F), (0x3000, 0x3000)]

/-- Whether a character has the property `White_Space`. -/
def isBlank (c : Char) : Bool :=
  blankRanges.any fun range => range.1 ≤ c.toNat && c.toNat ≤ range.2

/-- A code point in lower-case hexadecimal, between braces. -/
def codePoint (c : Char) : String :=
  "\\u\x7b" ++ String.ofList (Nat.toDigits 16 c.toNat) ++ "\x7d"

/-- Whether a character has no form of its own inside quotes. -/
def isHidden (c : Char) : Bool :=
  c.toNat < 0x20 || (0x7F ≤ c.toNat && c.toNat < 0xA0) || (isBlank c && c != ' ')

def quotedChar (c : Char) : String :=
  if c = '"' then "\\\""
  else if c = '\\' then "\\\\"
  else if c = '\n' then "\\n"
  else if c = '\t' then "\\t"
  else if c = '\r' then "\\r"
  else if c.toNat = 0 then "\\0"
  else if isHidden c then codePoint c
  else String.singleton c

def quoted (text : String) : String :=
  "\"" ++ String.join (text.toList.map quotedChar) ++ "\""

/-- Parts between brackets, separated by commas. -/
def bracketed (parts : List String) : String := "[" ++ ", ".intercalate parts ++ "]"

end Text

def emptyWordSign : Char := 'ε'

def alternativeSign : Char := '|'

/-- Whether a character of grammar text is a symbol. -/
def isSymbolChar (c : Char) : Bool := !Text.isBlank c && c != emptyWordSign

/-- The one-character names in a list of characters. -/
def symbolNames (chars : List Char) : List String :=
  (chars.filter isSymbolChar).map String.singleton

def symbolNamesOf (text : String) : List String := symbolNames text.toList

/-- A rule that is being written down, and the grammar that it belongs to. -/
structure RuleBuilder where
  lhs : Symbol
  grammar : Grammar

namespace Grammar

/-- Adds a production given by names. -/
def addProduction (g : Grammar) (lhs : String) (rhs : List String) : Grammar :=
  let (lhs, names) := g.names.intern lhs
  let (rhs, names) := names.internAll rhs
  { g with names }.addRule ⟨lhs, rhs⟩

/-- Adds one production for every alternative of a text. -/
def addAlternatives (g : Grammar) (lhs alternatives : String) : Grammar :=
  (alternatives.toList.splitOn alternativeSign).foldl
    (fun g chars => g.addProduction lhs (symbolNames chars)) g

/-- Starts the rule of a name, which is interned. -/
def rule (g : Grammar) (lhs : String) : RuleBuilder :=
  let (lhs, grammar) := g.intern lhs
  ⟨lhs, grammar⟩

end Grammar

namespace RuleBuilder

/-- Starts one more rule of the same grammar. -/
def rule (b : RuleBuilder) (lhs : String) : RuleBuilder := b.grammar.rule lhs

/-- Adds an alternative to the rule at hand. -/
def rhs (b : RuleBuilder) (rhs : List String) : RuleBuilder :=
  let (rhs, names) := b.grammar.names.internAll rhs
  { b with grammar := { b.grammar with names }.addRule ⟨b.lhs, rhs⟩ }

end RuleBuilder

namespace Grammar

/-- Adds the rules of a chain, one after another with one builder. The name of a rule is interned
even if it has no alternative. -/
def addChain (g : Grammar) : (chain : List (String × List (List String))) → Grammar
  | [] => g
  | first :: more =>
    let b := first.2.foldl RuleBuilder.rhs (g.rule first.1)
    (more.foldl (fun b next => next.2.foldl RuleBuilder.rhs (b.rule next.1)) b).grammar

end Grammar

namespace Grammar

/-- The text of a symbol without a name. -/
def unnamed : String := "?"

/-- The symbols of an alternative separated by spaces; an empty one is the empty-word sign. -/
def alternativeText (g : Grammar) (rhs : List Symbol) : String :=
  if rhs.isEmpty then String.singleton emptyWordSign
  else " ".intercalate (rhs.map (g.nameOr unnamed))

/-- The line of a rule without its line break. -/
def ruleText (g : Grammar) (rule : Rule) : String :=
  g.nameOr unnamed rule.lhs ++ " → " ++
    " | ".intercalate (rule.alternatives.map g.alternativeText)

def listing (g : Grammar) : String :=
  String.join (g.rules.map fun rule => g.ruleText rule ++ "\n")

def inspectRule (rule : Rule) : String :=
  rule.lhs.inspect ++ ": " ++
    Text.bracketed (rule.alternatives.map fun rhs => Text.bracketed (rhs.map Symbol.inspect))

def inspect (g : Grammar) : String :=
  "Grammar \x7b sym_source: SymbolSource \x7b names: \x7b" ++
    ", ".intercalate (g.names.entries.map Text.quoted) ++ "\x7d \x7d, productions: \x7b" ++
    ", ".intercalate (g.rules.map inspectRule) ++ "\x7d \x7d"

end Grammar

end ContextFree
