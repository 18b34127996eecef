import Mvcc.Json.Quoted

/-!
# JSON values

What a JSON document says, as far as anybody here asks: a number is kept only if it is written as a
whole number, a string only if its escapes make a text.

* `Value`, with `Value.print`: the compact form, fields in their order.
* `Value.ofWord`, `Value.ofBytes`, …: values that are written.
-/

namespace Mvcc.Json

inductive Number where
  /-- Digits, with or without a minus sign before them. -/
  | whole (negative : Bool) (magnitude : Nat)
  /-- A number with a fraction or an exponent. -/
  | scientific
  deriving DecidableEq

/-- A text of a document; none if its escapes make no text. -/
abbrev Text := Option String

inductive Value where
  | null
  | bool (b : Bool)
  | number (n : Number)
  | string (s : Text)
  | array (items : List Value)
  | object (fields : List (Text × Value))

instance : Inhabited Value := ⟨.null⟩

/-! ## Printing -/

/-- A number, with a stand-in for one that was not kept. -/
def Number.print : Number → List Char
  | whole negative n => (if negative then ['-'] else []) ++ Nat.toDigits 10 n
  | scientific => "0.0".toList

/-- A text between quotes, with a stand-in for one that was not kept. -/
def Text.print : Text → List Char
  | some s => Quoted.print s.toList
  | none => "\"\\ud800\"".toList

namespace Value

mutual

def print : Value → List Char
  | null => "null".toList
  | bool true => "true".toList
  | bool false => "false".toList
  | number n => n.print
  | string s => Text.print s
  | array [] => ['[', ']']
  | array (v :: rest) => '[' :: (print v ++ printItems rest)
  | object [] => ['{', '}']
  | object ((name, v) :: rest) =>
    '{' :: (Text.print name ++ ':' :: (print v ++ printFields rest))

/-- The items after the first, and the end of the array. -/
def printItems : List Value → List Char
  | [] => [']']
  | v :: rest => ',' :: (print v ++ printItems rest)

/-- The fields after the first, and the end of the object. -/
def printFields : List (Text × Value) → List Char
  | [] => ['}']
  | (name, v) :: rest => ',' :: (Text.print name ++ ':' :: (print v ++ printFields rest))

end

def render (v : Value) : String := String.ofList v.print

/-! ## Values that are written -/

def ofText (s : String) : Value := string (some s)

def ofInt (n : Int) : Value := number (.whole (decide (n < 0)) n.natAbs)

def ofWord (n : UInt64) : Value := number (.whole false n.toNat)

/-- A byte string, as the numbers of its bytes. -/
def ofBytes (b : Bytes) : Value := array (b.map fun x => number (.whole false x.toNat))

def ofOption {α : Type} (f : α → Value) : Option α → Value
  | none => null
  | some a => f a

/-- An object whose fields have these names. -/
def ofFields (fields : List (String × Value)) : Value :=
  object (fields.map fun e => (some e.1, e.2))

end Value

end Mvcc.Json
