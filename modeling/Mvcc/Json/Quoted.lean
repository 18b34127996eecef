import Mvcc.Bytes.Basic

/-!
# Quoted text

A text between quotes, in which some characters stand behind a backslash. An escape of four
hexadecimal digits names half of a character beyond the sixteen-bit range when it falls between
`D800` and `DFFF`; two halves in the right order make a character, and a half that stands alone
makes none.

* `Quoted.escape`, `Quoted.print`: what is written.
* `Quoted.scan`, `Quoted.join?`: the pieces up to the closing quote, and the text they make.
-/

namespace Mvcc.Json.Quoted

/-- A character of a quoted text, or half of one. -/
inductive Piece where
  | char (c : Char)
  | half (unit : Nat)
  deriving DecidableEq

namespace Piece

/-- What an escape of four hexadecimal digits names. -/
def ofUnit (n : Nat) : Piece :=
  if 0xD800 ≤ n ∧ n < 0xE000 then half n else char (Char.ofNat n)

end Piece

/-- The character that a backslash and one letter name. -/
def short? : Char → Option Char
  | '"' => some '"'
  | '\\' => some '\\'
  | '/' => some '/'
  | 'b' => some '\x08'
  | 'f' => some '\x0c'
  | 'n' => some '\n'
  | 'r' => some '\r'
  | 't' => some '\t'
  | _ => none

/-- The number that four hexadecimal digits name. -/
def unit? (a b c d : Char) : Option Nat := do
  let a ← Bytes.hexValue? a
  let b ← Bytes.hexValue? b
  let c ← Bytes.hexValue? c
  let d ← Bytes.hexValue? d
  return ((a * 16 + b) * 16 + c) * 16 + d

/-- The pieces up to the closing quote, behind those found before, and what follows the quote. A
control character must stand behind a backslash. -/
def scan (found : List Piece) : List Char → Option (List Piece × List Char)
  | [] => none
  | '"' :: rest => some (found.reverse, rest)
  | '\\' :: 'u' :: a :: b :: c :: d :: rest =>
    match unit? a b c d with
    | none => none
    | some n => scan (.ofUnit n :: found) rest
  | '\\' :: e :: rest =>
    match short? e with
    | none => none
    | some c => scan (.char c :: found) rest
  | c :: rest => if c = '\\' ∨ c < ' ' then none else scan (.char c :: found) rest

/-- The text that pieces make; none if a half stands alone. -/
def join? : List Piece → Option (List Char)
  | [] => some []
  | .char c :: rest => (join? rest).map (c :: ·)
  | .half high :: .half low :: rest =>
    if high < 0xDC00 ∧ 0xDC00 ≤ low then
      let c := Char.ofNat (0x10000 + (high - 0xD800) * 0x400 + (low - 0xDC00))
      (join? rest).map (c :: ·)
    else none
  | .half _ :: _ => none

/-- A character as it is written: quotes, backslashes and control characters are escaped. -/
def escape (c : Char) : List Char :=
  if c = '"' then ['\\', '"']
  else if c = '\\' then ['\\', '\\']
  else if c = '\x08' then ['\\', 'b']
  else if c = '\x0c' then ['\\', 'f']
  else if c = '\n' then ['\\', 'n']
  else if c = '\r' then ['\\', 'r']
  else if c = '\t' then ['\\', 't']
  else if c < ' ' then
    ['\\', 'u', '0', '0', Bytes.hexDigit (c.toNat / 16), Bytes.hexDigit (c.toNat % 16)]
  else [c]

/-- A text between quotes. -/
def print (s : List Char) : List Char := '"' :: s.flatMap escape ++ ['"']

theorem length_lt_of_scan {found pieces : List Piece} {cs rest : List Char}
    (h : scan found cs = some (pieces, rest)) : rest.length < cs.length := by
  fun_induction scan found cs
  case case1 | case3 | case5 | case7 => contradiction
  case case2 => simp_all
  case case4 ih | case6 ih | case8 ih =>
    have := ih h
    simp only [List.length_cons]
    omega

end Mvcc.Json.Quoted
