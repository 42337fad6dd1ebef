/-!
# Faults, machine words and reports

Some requests have no answer: a symbol outside the id space, a bit outside a set, a count
too large for a machine word. Each such condition is one constructor of `Fault`, and its
wording is fixed in `Fault.message`.

Heights, widths and costs are natural numbers kept below `2 ^ 64`. A checked sum is a fault
when it leaves that range; a saturating sum or product stays at the largest word.

A computation that reports what it does carries the list of its reports beside its outcome.
A fault ends the computation and keeps every report made before it. Reports are values of a
type of events chosen by the computation; their wording is a matter of whoever prints them.
The outcome of a sequence is the sequence of outcomes (`outcome_bind`), so statements about
results never mention the log.
-/
namespace ContextFree

/-- A condition under which an operation has no answer. -/
inductive Fault
  /-- The 32-bit id that is kept free was asked for. -/
  | symbolSpaceExhausted
  /-- A machine word that is no symbol id was asked for. -/
  | symbolOutOfRange
  /-- A bit was written past the end of a set. -/
  | indexOutOfBounds (index size : Nat)
  /-- Two sets of different capacity were combined. -/
  | sizeMismatch (left right : Nat)
  /-- A finished root item matched a number of trees other than one. -/
  | rootArity (count : Nat)
  /-- A sum does not fit in a machine word. -/
  | addOverflow
  deriving DecidableEq

namespace Fault

/-- The wording of each fault. A bit out of bounds and sets of different size are worded as by the
bit vector that symbol sets stand on. -/
def message : Fault → String
  | symbolSpaceExhausted => "ran out of Symbol space"
  | symbolOutOfRange => "symbol id out of range"
  | indexOutOfBounds index size => s!"index out of bounds: {index} >= {size}"
  | sizeMismatch left right =>
    s!"assertion `left == right` failed\n  left: {left}\n right: {right}"
  | rootArity count =>
    "assertion `left == right` failed: root item must match exactly one tree\n" ++
      s!"  left: {count}\n right: 1"
  | addOverflow => "attempt to add with overflow"

end Fault

namespace Word

/-- The largest machine word, `2 ^ 64 - 1`. -/
def largest : Nat := 18446744073709551615

/-- The sum, when it is a machine word. -/
def add (a b : Nat) : Except Fault Nat :=
  if a + b ≤ largest then .ok (a + b) else .error .addOverflow

theorem add_eq_ok_iff {a b c : Nat} : add a b = .ok c ↔ a + b ≤ largest ∧ a + b = c := by
  by_cases h : a + b ≤ largest <;> simp [add, h]

theorem add_eq_error_iff {a b : Nat} {fault : Fault} :
    add a b = .error fault ↔ largest < a + b ∧ .addOverflow = fault := by
  by_cases h : a + b ≤ largest
  · simp [add, h, Nat.not_lt.2 h]
  · simp [add, h, Nat.lt_of_not_le h]

/-- The sum, or the largest word if the sum exceeds it. -/
def saturatingAdd (a b : Nat) : Nat := min (a + b) largest

theorem saturatingAdd_le (a b : Nat) : saturatingAdd a b ≤ largest := Nat.min_le_right _ _

def saturatingMul (a b : Nat) : Nat := min (a * b) largest

end Word

/-- How important a report is, the most important first. -/
inductive Level
  | warn
  | debug
  | trace
  deriving DecidableEq

namespace Level

def name : Level → String
  | warn => "warn"
  | debug => "debug"
  | trace => "trace"

def ofName? : String → Option Level
  | "warn" => some warn
  | "debug" => some debug
  | "trace" => some trace
  | _ => none

def rank : Level → Nat
  | warn => 0
  | debug => 1
  | trace => 2

/-- A listener at level `self` hears every report that is at least as important. -/
def hears (self report : Level) : Bool := report.rank ≤ self.rank

@[simp] theorem ofName?_name (level : Level) : ofName? level.name = some level := by
  cases level <;> rfl

end Level

/-- A result or a fault, with the reports made on the way to it. -/
structure Logged (ε α : Type) where
  log : List ε
  outcome : Except Fault α

namespace Logged

variable {ε α β : Type}

/-- A computation that makes no report. -/
def quiet (outcome : Except Fault α) : Logged ε α := ⟨[], outcome⟩

/-- Makes reports, the first one first. -/
def emitAll (events : List ε) : Logged ε Unit := ⟨events, .ok ()⟩

def emit (event : ε) : Logged ε Unit := emitAll [event]

/-- Runs `next` on the result of `x`. After a fault nothing more is run. -/
protected def bind (x : Logged ε α) (next : α → Logged ε β) : Logged ε β :=
  match x.outcome with
  | .error fault => ⟨x.log, .error fault⟩
  | .ok a =>
    let y := next a
    ⟨x.log ++ y.log, y.outcome⟩

instance : Monad (Logged ε) where
  pure a := quiet (.ok a)
  bind := Logged.bind

instance : MonadLift (Except Fault) (Logged ε) where
  monadLift := quiet

@[simp] theorem log_pure (a : α) : (pure a : Logged ε α).log = [] := rfl

@[simp] theorem outcome_pure (a : α) : (pure a : Logged ε α).outcome = .ok a := rfl

@[simp] theorem log_quiet (x : Except Fault α) : (quiet x : Logged ε α).log = [] := rfl

@[simp] theorem outcome_quiet (x : Except Fault α) : (quiet x : Logged ε α).outcome = x := rfl

@[simp] theorem log_liftM (x : Except Fault α) : (liftM x : Logged ε α).log = [] := rfl

@[simp] theorem outcome_liftM (x : Except Fault α) : (liftM x : Logged ε α).outcome = x := rfl

@[simp] theorem log_emitAll (events : List ε) : (emitAll events).log = events := rfl

@[simp] theorem outcome_emitAll (events : List ε) : (emitAll events).outcome = .ok () := rfl

@[simp] theorem log_emit (event : ε) : (emit event).log = [event] := rfl

@[simp] theorem outcome_emit (event : ε) : (emit event).outcome = .ok () := rfl

theorem bind_of_ok {x : Logged ε α} {a : α} (h : x.outcome = .ok a) (next : α → Logged ε β) :
    x >>= next = ⟨x.log ++ (next a).log, (next a).outcome⟩ := by
  show Logged.bind x next = _
  simp [Logged.bind, h]

theorem bind_of_error {x : Logged ε α} {fault : Fault} (h : x.outcome = .error fault)
    (next : α → Logged ε β) : x >>= next = ⟨x.log, .error fault⟩ := by
  show Logged.bind x next = _
  simp [Logged.bind, h]

/-- Reports play no part in results. -/
@[simp] theorem outcome_bind (x : Logged ε α) (next : α → Logged ε β) :
    (x >>= next).outcome = x.outcome >>= fun a => (next a).outcome := by
  cases h : x.outcome with
  | ok a => rw [bind_of_ok h]; rfl
  | error fault => rw [bind_of_error h]; rfl

instance : LawfulMonad (Logged ε) :=
  LawfulMonad.mk' (Logged ε)
    (by
      intro α x
      show Logged.bind x _ = x
      cases x with
      | mk log outcome => cases outcome <;> simp [Logged.bind, quiet])
    (by intros; rfl)
    (by
      intro α β γ x f g
      show Logged.bind (Logged.bind x f) g = Logged.bind x fun a => Logged.bind (f a) g
      cases x with
      | mk log outcome =>
        cases outcome with
        | error => rfl
        | ok a =>
          simp only [Logged.bind]
          cases (f a).outcome <;> simp)

end Logged

end ContextFree
