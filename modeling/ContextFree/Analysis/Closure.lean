import ContextFree.Queue
import ContextFree.SymbolSet

/-!
# Traversals of a grammar

A mark put on some symbols spreads along a successor function, breadth first: a symbol is
marked when it is drawn, and its successors are queued behind everything that waits already.
A symbol that is drawn again is skipped. Each mark leaves fewer ids unmarked, so the queue
runs dry. A successor function that is asked again and again is tabulated for the lowest ids.
Looking a value up gives the value of the function (`lookUp_tabulate`), so a table changes no
result.

A property of symbols passes from the right-hand side of a production to its left-hand side
once every symbol of the right-hand side has it. The closure looks only at productions that
mention a symbol which has just gained the property: symbols are drawn from a stack, and
those that gain the property are pushed on it. A production without right-hand side symbols
is never looked at, so its left-hand side must have the property from the start.

The productions that mention a symbol are found in a table of all occurrences, sorted by symbol. A
production stands there once for every symbol of its right-hand side. In a row where everything
in front of some point comes before the symbol and nothing behind it does, the point is found by
halving the part of the row in which it must lie.
-/
namespace ContextFree

namespace SymbolSet

/-- Marks every symbol of the queue and everything that can be reached from it by `next`. -/
def spread (next : Symbol → List Symbol) (marked : SymbolSet) (queue : Queue Symbol) :
    Except Fault SymbolSet :=
  match hdraw : queue.draw? with
  | none => .ok marked
  | some (symbol, rest) =>
    have := Queue.size_of_draw? hdraw
    if hnew : marked.contains symbol = false then
      match hput : marked.put symbol true with
      | .error fault => .error fault
      | .ok more =>
        have := absent_of_put hput hnew
        spread next more (rest.append (next symbol))
    else
      spread next marked rest
termination_by (marked.absent, queue.size)

end SymbolSet

namespace Symbol

variable {α : Type}

/-- The values of a function for the ids below `size`. -/
def tabulate (size : Nat) (f : Symbol → α) : Array α := (Array.range size).map fun id => f ⟨id⟩

/-- Looks a value up in a table, and computes it for a symbol beyond the table. -/
def lookUp (table : Array α) (f : Symbol → α) (symbol : Symbol) : α :=
  match table[symbol.id]? with
  | some value => value
  | none => f symbol

@[simp] theorem lookUp_tabulate (size : Nat) (f : Symbol → α) : lookUp (tabulate size f) f = f := by
  funext symbol
  by_cases h : symbol.id < size
  · simp [lookUp, tabulate, h]
  · simp [lookUp, tabulate, h]

end Symbol

section Bisection

variable {α : Type} {before : α → Bool} {row : Array α}

/-- The point from `low` to `high` in front of which everything is `before`. -/
def bisect (before : α → Bool) (row : Array α) (low high : Nat) (h : high ≤ row.size) : Nat :=
  if hlt : low < high then
    have hmiddle : (low + high) / 2 < high := by omega
    if before row[(low + high) / 2] then bisect before row ((low + high) / 2 + 1) high h
    else bisect before row low ((low + high) / 2) (by omega)
  else low
termination_by high - low

/-- The number of elements in front of the point up to which everything is `before`. -/
def partitionPoint (before : α → Bool) (row : Array α) : Nat :=
  bisect before row 0 row.size (Nat.le_refl _)

theorem bisect_eq {low point high : Nat} {h : high ≤ row.size}
    (hrow : ∀ i (hi : i < row.size), before row[i] = true ↔ i < point) (hlow : low ≤ point)
    (hhigh : point ≤ high) : bisect before row low high h = point := by
  fun_induction bisect before row low high h with
  | case1 low high h hlt hmiddle hbefore ih => exact ih ((hrow _ _).1 hbefore) hhigh
  | case2 low high h hlt hmiddle hbefore ih =>
    exact ih hlow (Nat.le_of_not_lt fun hlt' => hbefore ((hrow _ _).2 hlt'))
  | case3 low high h hge => omega

/-- Where everything in front is `before` and nothing behind is, the parts are told apart. -/
theorem partitionPoint_eq_length {front back : List α} (hrow : row.toList = front ++ back)
    (hfront : ∀ a ∈ front, before a = true) (hback : ∀ a ∈ back, before a = false) :
    partitionPoint before row = front.length := by
  have hsize : row.size = front.length + back.length := by
    rw [← Array.length_toList, hrow, List.length_append]
  refine bisect_eq (fun i hi => ?_) (Nat.zero_le _) (by omega)
  rw [← Array.getElem_toList]
  simp only [hrow, List.getElem_append]
  split
  · next hlt => simp [hfront _ (List.getElem_mem hlt), hlt]
  · next hge => simp [hback _ (List.getElem_mem _), hge]

end Bisection

/-- A symbol in the right-hand side of a production. -/
structure Occurrence where
  symbol : Symbol
  production : Production
  deriving DecidableEq

namespace Occurrence

def compareSymbols (a b : Occurrence) : Ordering := compare a.symbol.id b.symbol.id

/-- The occurrences of a symbol in a table that is sorted by symbol. -/
def find (table : Array Occurrence) (symbol : Symbol) : List Occurrence :=
  let start := partitionPoint (fun occurrence => occurrence.symbol.id < symbol.id) table
  (table.toList.drop start).takeWhile fun occurrence => occurrence.symbol = symbol

end Occurrence

/-- The symbols that have a property so far, and those of them that still have to be looked
at. -/
structure Frontier where
  property : SymbolSet
  stack : List Symbol

namespace Frontier

/-- Gives the property to the left-hand side of a production that lies inside it, unless it has it
already. -/
def pass (f : Frontier) (occurrence : Occurrence) : Except Fault Frontier :=
  let production := occurrence.production
  if !f.property.contains production.lhs && production.rhs.all f.property.contains then do
    let property ← f.property.put production.lhs true
    return ⟨property, production.lhs :: f.stack⟩
  else return f

/-- The number of symbols that still have to be looked at or may gain the property. -/
def remaining (f : Frontier) : Nat := f.property.absent + f.stack.length

/-- A production passes the property on, or nothing happens. -/
theorem cases_of_pass {f next : Frontier} {occurrence : Occurrence}
    (h : f.pass occurrence = .ok next) :
    (f.property.contains occurrence.production.lhs = false ∧
      (∀ symbol ∈ occurrence.production.rhs, f.property.contains symbol = true) ∧
      f.property.put occurrence.production.lhs true = .ok next.property ∧
      next.stack = occurrence.production.lhs :: f.stack) ∨
    ((f.property.contains occurrence.production.lhs = true ∨
      ∃ symbol ∈ occurrence.production.rhs, f.property.contains symbol = false) ∧ next = f) := by
  unfold pass at h
  dsimp only at h
  split at h
  · next hgain =>
    simp only [Bool.and_eq_true, Bool.not_eq_true', List.all_eq_true] at hgain
    cases hput : f.property.put occurrence.production.lhs true with
    | error fault =>
      rw [hput] at h
      cases h
    | ok property =>
      rw [hput] at h
      obtain rfl := Except.ok.inj h
      exact .inl ⟨hgain.1, hgain.2, rfl, rfl⟩
  · next hgain =>
    refine .inr ⟨?_, (Except.ok.inj h).symm⟩
    simpa [Classical.or_iff_not_imp_left] using hgain

/-- What a symbol takes away from the outside it adds to the stack. -/
theorem remaining_of_pass {f next : Frontier} {occurrence : Occurrence}
    (h : f.pass occurrence = .ok next) : next.remaining = f.remaining := by
  rcases cases_of_pass h with ⟨hnew, -, hput, hstack⟩ | ⟨-, rfl⟩
  · have habsent := SymbolSet.absent_of_put hput hnew
    simp only [remaining, hstack, List.length_cons]
    omega
  · rfl

end Frontier

namespace Grammar

/-- The occurrences of symbols in right-hand sides, production by production. -/
def occurrences (g : Grammar) : List Occurrence :=
  g.productions.flatMap fun production => production.rhs.map fun symbol => ⟨symbol, production⟩

/-- The occurrences sorted by symbol. Those of one symbol keep their order. -/
def occurrenceTable (g : Grammar) : Array Occurrence :=
  (g.occurrences.mergeSort fun a b => (a.compareSymbols b).isLE).toArray

/-- Closes a property under the productions of a table: those of the occurrences `rest` come first,
then those that mention a symbol of the stack. -/
def closeFrom (table : Array Occurrence) (f : Frontier) (rest : List Occurrence) :
    Except Fault SymbolSet :=
  match f, rest with
  | f, occurrence :: rest =>
    match hpass : f.pass occurrence with
    | .error fault => .error fault
    | .ok next =>
      have := Frontier.remaining_of_pass hpass
      closeFrom table next rest
  | ⟨property, symbol :: stack⟩, [] =>
    closeFrom table ⟨property, stack⟩ (Occurrence.find table symbol)
  | ⟨property, []⟩, [] => .ok property
termination_by (f.remaining, rest.length)
decreasing_by
  · simp only [this, List.length_cons]
    decreasing_tactic
  · simp only [Frontier.remaining, List.length_cons]
    decreasing_tactic

/-- The least superset of a set that is closed under productions. -/
def closure (g : Grammar) (property : SymbolSet) : Except Fault SymbolSet :=
  closeFrom g.occurrenceTable ⟨property, property.members.reverse⟩ []

end Grammar

end ContextFree
