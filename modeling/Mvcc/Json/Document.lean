import Mvcc.Json.Token

/-!
# JSON documents

A document is one value and nothing after it. It is read token by token; what is open around the
next token lies on a stack, so that no depth of nesting is too much.

* `Frame`, `Reading`, `Reading.step`: what is open, and how a token moves it.
* `Value.ofText?`: the value of a document.
-/

namespace Mvcc.Json

/-- An array or object that is open, with what it holds so far, last first. -/
inductive Frame where
  | array (items : List Value)
  /-- The value of the field `name` comes next. -/
  | object (fields : List (Text × Value)) (name : Text)

/-- What was read and what may come next. -/
inductive Reading where
  | value (around : List Frame)
  /-- A value, or the end of an array that was just opened. -/
  | firstItem (around : List Frame)
  /-- A name, or the end of an object that was just opened. -/
  | firstName (around : List Frame)
  | name (fields : List (Text × Value)) (around : List Frame)
  /-- The colon after a name. -/
  | colon (fields : List (Text × Value)) (name : Text) (around : List Frame)
  /-- A comma, or the end of an array. -/
  | afterItem (items : List Value) (around : List Frame)
  /-- A comma, or the end of an object. -/
  | afterField (fields : List (Text × Value)) (around : List Frame)
  | complete (v : Value)

namespace Reading

/-- After a whole value. -/
def finish (v : Value) : List Frame → Reading
  | [] => complete v
  | .array items :: around => afterItem (v :: items) around
  | .object fields s :: around => afterField ((s, v) :: fields) around

/-- Takes a token where a value comes next. -/
def start (around : List Frame) : Token → Option Reading
  | .openArray => some (firstItem around)
  | .openObject => some (firstName around)
  | .null => some (finish .null around)
  | .bool b => some (finish (.bool b) around)
  | .number n => some (finish (.number n) around)
  | .string s => some (finish (.string s) around)
  | .closeArray | .closeObject | .colon | .comma => none

def step : Reading → Token → Option Reading
  | value around, t => start around t
  | firstItem around, .closeArray => some (finish (.array []) around)
  | firstItem around, t => start (.array [] :: around) t
  | firstName around, .closeObject => some (finish (.object []) around)
  | firstName around, .string s => some (colon [] s around)
  | name fields around, .string s => some (colon fields s around)
  | colon fields s around, .colon => some (value (.object fields s :: around))
  | afterItem items around, .comma => some (value (.array items :: around))
  | afterItem items around, .closeArray => some (finish (.array items.reverse) around)
  | afterField fields around, .comma => some (name fields around)
  | afterField fields around, .closeObject => some (finish (.object fields.reverse) around)
  | _, _ => none

end Reading

/-- The value that a list of tokens spells. -/
def Value.ofTokens? (tokens : List Token) : Option Value :=
  match tokens.foldlM Reading.step (.value []) with
  | some (.complete v) => some v
  | _ => none

def Value.ofText? (s : String) : Option Value := (Token.all? s.toList).bind Value.ofTokens?

end Mvcc.Json
