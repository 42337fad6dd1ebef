import ContextFree.Analysis.Basic
import ContextFree.Fault
import ContextFree.Grammar.Text

/-!
# Diagnostics

A diagnostic names what is wrong with some nonterminals of a grammar. An analysis has one for
each of its sets that stands for a problem and has members: unreachable, unrealizable and
cyclic nonterminals, in that order. Being nullable is no problem and only reported.
-/
namespace ContextFree

/-- What is wrong with some nonterminals. -/
inductive DiagnosticKind
  /-- They cannot be reached from the start symbol. -/
  | unreachable
  /-- They cannot generate any strings. -/
  | unrealizable
  /-- They can derive themselves, perhaps with infinitely many derivations of some strings. -/
  | cyclic (unboundedAmbiguity : Bool)
  deriving DecidableEq

/-- A problem of a grammar, with the nonterminals that have it in order of definition. -/
structure Diagnostic where
  kind : DiagnosticKind
  nonterminals : List Symbol
  deriving DecidableEq

namespace DiagnosticKind

def name : DiagnosticKind → String
  | unreachable => "unreachable"
  | unrealizable => "unrealizable"
  | cyclic _ => "cyclic"

/-- Reads a kind; an unbounded one has a name of its own. -/
def ofName? : String → Option DiagnosticKind
  | "unreachable" => some unreachable
  | "unrealizable" => some unrealizable
  | "cyclic" => some (cyclic false)
  | "cyclic_unbounded" => some (cyclic true)
  | _ => none

def inspect : DiagnosticKind → String
  | unreachable => "Unreachable"
  | unrealizable => "Unrealizable"
  | cyclic unboundedAmbiguity =>
    "Cyclic \x7b unbounded_ambiguity: " ++ (if unboundedAmbiguity then "true" else "false") ++
      " \x7d"

/-- What the text of a diagnostic says about its nonterminals. -/
def complaint (g : Grammar) : DiagnosticKind → String
  | unreachable =>
    match g.start? with
    | some start => "unreachable from the start symbol " ++ g.nameOr Grammar.unnamed start
    | none => "unreachable"
  | unrealizable => "unrealizable (cannot generate any strings)"
  | cyclic true => "cyclic, so some strings have infinitely many derivations"
  | cyclic false => "cyclic"

end DiagnosticKind

namespace Diagnostic

/-- The text of a diagnostic: one sentence about its nonterminals. -/
def text (g : Grammar) (d : Diagnostic) : String :=
  let (noun, verb) :=
    if d.nonterminals.length = 1 then ("Nonterminal", "is") else ("Nonterminals", "are")
  noun ++ " " ++ ", ".intercalate (d.nonterminals.map (g.nameOr Grammar.unnamed)) ++
    " " ++ verb ++ " " ++ d.kind.complaint g ++ "."

def inspect (d : Diagnostic) : String :=
  "Diagnostic \x7b kind: " ++ d.kind.inspect ++ ", nonterminals: " ++
    Text.bracketed (d.nonterminals.map Symbol.inspect) ++ " \x7d"

end Diagnostic

inductive AnalysisEvent
  | problem (diagnostic : Diagnostic)
  /-- Some nonterminals derive the empty string. -/
  | nullable (symbols : SymbolSet)

namespace AnalysisEvent

def level : AnalysisEvent → Level
  | problem _ => .warn
  | nullable _ => .debug

def message (g : Grammar) : AnalysisEvent → String
  | problem diagnostic => diagnostic.text g
  | nullable symbols => "nullable: " ++ Text.bracketed ((symbols.names g).map Text.quoted)

end AnalysisEvent

namespace Analysis

/-- The sets that stand for problems, each with its kind. -/
def categories (a : Analysis) : List (DiagnosticKind × SymbolSet) :=
  [(.unreachable, a.unreachable), (.unrealizable, a.unrealizable),
   (.cyclic a.unboundedAmbiguity, a.cyclic)]

/-- The problems of a grammar. Categories without members are left out. -/
def diagnostics (a : Analysis) (g : Grammar) : List Diagnostic :=
  (a.categories.filter fun category => !category.2.isEmpty).map fun category =>
    ⟨category.1, g.nonterminals.filter category.2.contains⟩

def reports (a : Analysis) (g : Grammar) : List AnalysisEvent :=
  (a.diagnostics g).map .problem ++ if a.nullable.isEmpty then [] else [.nullable a.nullable]

end Analysis

namespace Grammar

def analyse (g : Grammar) : Logged AnalysisEvent Analysis := do
  let analysis ← g.analysis
  Logged.emitAll (analysis.reports g)
  return analysis

end Grammar

end ContextFree
