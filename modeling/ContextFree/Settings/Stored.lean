import ContextFree.Enumeration.Run
import ContextFree.Parse

/-!
# Stored settings

Settings are stored as self-describing values: nothing, truth values, numbers, texts, lists
and records of named fields. The accessors give what a setting can use and refuse the rest.

Limits are stored as records, and read from records with any further fields, or from lists of
exactly their fields in order. A field that is optional may be null, and may be missing from
a record. A symbol is stored as a number one higher than its id, so zero is no symbol.
-/
namespace ContextFree

inductive Value
  | null
  | boolean (value : Bool)
  | integer (value : Int)
  /-- A number that is not written as an integer: its digits, and how many stand after the
  point. -/
  | fraction (digits : Int) (places : Nat)
  | text (value : String)
  | list (values : List Value)
  | record (fields : List (String × Value))
  deriving Inhabited

namespace Value

/-- An integer that is a machine word. -/
def word? : Value → Option Nat
  | integer value => if 0 ≤ value ∧ value ≤ Word.largest then some value.toNat else none
  | _ => none

/-- A machine word, or nothing where the value is null. -/
def optionalWord? : Value → Option (Option Nat)
  | null => some none
  | value => value.word?.map some

def field? (fields : List (String × Value)) (name : String) : Option Value :=
  (fields.find? fun field => field.1 == name).map Prod.snd

def ofNat (n : Nat) : Value := integer n

def ofOptionalNat : Option Nat → Value
  | none => null
  | some n => ofNat n

@[simp] theorem word?_ofNat {n : Nat} (h : n ≤ Word.largest) : (ofNat n).word? = some n := by
  have : (0 : Int) ≤ n ∧ (n : Int) ≤ Word.largest := by omega
  simp [ofNat, word?, this]

@[simp] theorem optionalWord?_ofOptionalNat {n : Option Nat} (h : ∀ k ∈ n, k ≤ Word.largest) :
    (ofOptionalNat n).optionalWord? = some n := by
  cases n with
  | none => rfl
  | some k =>
    have hk := word?_ofNat (h k rfl)
    simp only [ofOptionalNat, ofNat] at hk ⊢
    simp [optionalWord?, hk]

end Value

namespace ParseLimits

def toValue (limits : ParseLimits) : Value :=
  .record [("state_size", .ofNat limits.stateSize)]

def ofValue? : Value → Option ParseLimits
  | .record fields => do
    let stateSize ← (← Value.field? fields "state_size").word?
    return ⟨stateSize⟩
  | .list [stateSize] => do
    let stateSize ← stateSize.word?
    return ⟨stateSize⟩
  | _ => none

def inspect (limits : ParseLimits) : String :=
  s!"ParseLimits \x7b state_size: {limits.stateSize} \x7d"

/-- Limits within machine words are read back as they were stored. -/
theorem ofValue?_toValue {limits : ParseLimits} (h : limits.stateSize ≤ Word.largest) :
    ofValue? limits.toValue = some limits := by
  simp [toValue, ofValue?, Value.field?, h]

end ParseLimits

namespace EnumerationLimits

def toValue (limits : EnumerationLimits) : Value :=
  .record [("work", .ofNat limits.work), ("max_depth", .ofOptionalNat limits.maxDepth)]

def ofValue? : Value → Option EnumerationLimits
  | .record fields => do
    let work ← (← Value.field? fields "work").word?
    let maxDepth ← ((Value.field? fields "max_depth").getD .null).optionalWord?
    return ⟨work, maxDepth⟩
  | .list [work, maxDepth] => do
    let work ← work.word?
    let maxDepth ← maxDepth.optionalWord?
    return ⟨work, maxDepth⟩
  | _ => none

def inspect (limits : EnumerationLimits) : String :=
  let maxDepth := match limits.maxDepth with
    | none => "None"
    | some maxDepth => s!"Some({maxDepth})"
  s!"EnumerationLimits \x7b work: {limits.work}, max_depth: {maxDepth} \x7d"

/-- Limits within machine words are read back as they were stored. -/
theorem ofValue?_toValue {limits : EnumerationLimits} (hwork : limits.work ≤ Word.largest)
    (hdepth : ∀ depth ∈ limits.maxDepth, depth ≤ Word.largest) :
    ofValue? limits.toValue = some limits := by
  simp [toValue, ofValue?, Value.field?, hwork, Value.optionalWord?_ofOptionalNat hdepth]

end EnumerationLimits

namespace Symbol

def toValue (symbol : Symbol) : Value := .ofNat (symbol.id + 1)

def ofValue? (value : Value) : Option Symbol := do
  let stored ← value.word?
  if 1 ≤ stored ∧ stored ≤ reservedId then some ⟨stored - 1⟩ else none

theorem ofValue?_toValue {symbol : Symbol} (h : symbol.id < reservedId) :
    ofValue? symbol.toValue = some symbol := by
  have hword : symbol.id + 1 ≤ Word.largest :=
    Nat.le_trans h (by decide)
  have hrange : 1 ≤ symbol.id + 1 ∧ symbol.id + 1 ≤ reservedId := ⟨Nat.le_add_left .., h⟩
  rw [ofValue?, toValue, Value.word?_ofNat hword]
  exact if_pos hrange

end Symbol

end ContextFree
