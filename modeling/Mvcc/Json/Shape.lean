import Mvcc.Json.Value

/-!
# Shapes of values

How the parts of a domain value are found in a JSON value.

* Whole numbers must fit the word they are read as, and zero has no sign.
* A record is an object, in which unknown fields are skipped and known ones stand once, or an array
  of its fields in order.
* A choice is the name of a case, or an object whose one field is the case and its content.
-/

namespace Mvcc.Json.Value

/-! ## Words, texts and lists -/

def text? : Value → Option String
  | string s => s
  | _ => none

def below? (bound : Nat) : Value → Option Nat
  | number (.whole false n) => if n < bound then some n else none
  | _ => none

def word? (v : Value) : Option UInt64 := (v.below? UInt64.size).map UInt64.ofNat

def byte? (v : Value) : Option UInt8 := (v.below? UInt8.size).map UInt8.ofNat

/-- How many signed words are below zero, and how many are not. -/
def half : Nat := 0x8000000000000000

def int? : Value → Option Int64
  | number (.whole false n) => if n < half then some (Int64.ofInt n) else none
  | number (.whole true n) => if 0 < n ∧ n ≤ half then some (Int64.ofInt (-n)) else none
  | _ => none

def list? {α : Type} (item : Value → Option α) : Value → Option (List α)
  | array items => items.mapM item
  | _ => none

def bytes? (v : Value) : Option Bytes := v.list? byte?

def nullable? {α : Type} (read : Value → Option α) : Value → Option (Option α)
  | null => some none
  | v => (read v).map some

/-! ## Records -/

/-- The values of fields by name; none where the field is missing. An array may be shorter than the
record if `short` says so. -/
def fields? (names : List String) (short : Bool) : Value → Option (List (Option Value))
  | object fields =>
    if fields.all (·.1.isSome) ∧ ∀ n ∈ names, (fields.filter fun f => f.1 == some n).length ≤ 1 then
      some (names.map fun n => (fields.find? fun f => f.1 == some n).map (·.2))
    else none
  | array items =>
    if items.length = names.length ∨ (short = true ∧ items.length ≤ names.length) then
      some (items.map some ++ List.replicate (names.length - items.length) none)
    else none
  | _ => none

/-- The value of a field that may be missing or null. -/
def optionalField? {α : Type} (read : Value → Option α) : Option Value → Option (Option α)
  | none => some none
  | some v => v.nullable? read

/-- The value of a field that has a default. -/
def defaultField? {α : Type} (a : α) (read : Value → Option α) : Option Value → Option α
  | none => some a
  | some v => read v

/-! ## Choices -/

/-- The case of a choice, and its content if it has one. -/
def case? : Value → Option (String × Option Value)
  | string (some s) => some (s, none)
  | object [(some s, v)] => some (s, some v)
  | _ => none

/-- A case without content: its name alone, or null as its content. -/
def plainCase? (v : Value) : Option String :=
  match v.case? with
  | some (s, none) => some s
  | some (s, some null) => some s
  | _ => none

/-- One of several values that are told apart by their names. -/
def oneOf? {α : Type} (all : List α) (name : α → String) (v : Value) : Option α := do
  let s ← v.plainCase?
  all.find? fun a => name a == s

end Mvcc.Json.Value
