import ContextFree.Fault
import ContextFree.Symbol
import ContextFree.Queue
import ContextFree.Grammar.Basic
import ContextFree.Grammar.Text
import ContextFree.Shape
import ContextFree.OrderedSet
import ContextFree.Tree.Node
import ContextFree.Tree.Basic
import ContextFree.Tree.Order
import ContextFree.Chart.Item
import ContextFree.Chart.Position
import ContextFree.Parse
import ContextFree.Chart.Checked
import ContextFree.Enumeration.Run
import ContextFree.SymbolSet
import ContextFree.Analysis.Closure
import ContextFree.Analysis.Basic
import ContextFree.Analysis.Diagnostic
import ContextFree.Settings.Stored
import ContextFree.Derivation
import ContextFree.Proofs.Productions
import ContextFree.Proofs.Measures
import ContextFree.Proofs.Closing
import ContextFree.Proofs.Charts
import ContextFree.Proofs.Spans
import ContextFree.Proofs.Advancing
import ContextFree.Proofs.Parsing
import ContextFree.Proofs.Enumerating
import ContextFree.Proofs.Generating
import ContextFree.Proofs.Spreading
import ContextFree.Proofs.Drawing
import ContextFree.Proofs.Reaching
import ContextFree.Proofs.Contexts
import ContextFree.Proofs.Heights
import ContextFree.Proofs.Ambiguity
import ContextFree.Proofs.Rewriting
import ContextFree.Proofs.Layering
import ContextFree.Proofs.Exhausting
import ContextFree.Proofs.Overflow
import ContextFree.Proofs.Pumping
import ContextFree.Proofs.Sufficing
import ContextFree.Proofs.Finishing
import ContextFree.Proofs.Agreeing
import ContextFree.Proofs.Lowering
import ContextFree.Proofs.Limiting
import ContextFree.Proofs.Repeating
import ContextFree.Proofs.Interning
import ContextFree.Proofs.Editing
import ContextFree.Proofs.Analysing
import ContextFree.Proofs.Diagnosing
import ContextFree.Proofs.Checking
import ContextFree.Proofs.Accounting
import ContextFree.Proofs.Relaxing
import ContextFree.Proofs.Measuring
import ContextFree.Proofs.Reading
import ContextFree.Proofs.Bracketing
import ContextFree.Proofs.Arranging
import ContextFree.Proofs.Sorting
import ContextFree.Proofs.Indexing
import ContextFree.Proofs.Saturating
import ContextFree.Proofs.Draining
import ContextFree.Proofs.Tracing
import ContextFree.Proofs.Combining
