/-!
# Byte strings

Byte strings are lists of bytes, ordered lexicographically with a proper beginning first.

* `Bytes.toHex`, `Bytes.ofHex?`: two lower-case digits a byte; `ofHex?_toHex` says that nothing is
  lost.
* `Bytes.ofText`, `Bytes.toText?`: the UTF-8 form of a text; `toText?_eq_some_iff` says that only
  what a text produces is read back.
-/

namespace Mvcc

abbrev Bytes := List UInt8

namespace Bytes

/-! ## Hexadecimal digits -/

/-- The digit of a number below sixteen, in lower case. -/
def hexDigit (n : Nat) : Char :=
  if n < 10 then Char.ofNat (48 + n) else Char.ofNat (87 + n)

/-- The number a digit stands for, in either case. -/
def hexValue? (c : Char) : Option Nat :=
  if '0' ≤ c ∧ c ≤ '9' then some (c.toNat - 48)
  else if 'a' ≤ c ∧ c ≤ 'f' then some (c.toNat - 87)
  else if 'A' ≤ c ∧ c ≤ 'F' then some (c.toNat - 55)
  else none

def hexDigits (b : Bytes) : List Char :=
  b.flatMap fun x => [hexDigit (x.toNat / 16), hexDigit (x.toNat % 16)]

/-- Reads bytes from pairs of digits. -/
def ofHexDigits? : List Char → Option Bytes
  | [] => some []
  | [_] => none
  | hi :: lo :: rest => do
    let h ← hexValue? hi
    let l ← hexValue? lo
    let tail ← ofHexDigits? rest
    return UInt8.ofNat (16 * h + l) :: tail

def toHex (b : Bytes) : String := String.ofList b.hexDigits

def ofHex? (s : String) : Option Bytes := ofHexDigits? s.toList

theorem hexValue?_hexDigit : ∀ n < 16, hexValue? (hexDigit n) = some n := by decide

theorem ofHexDigits?_hexDigits (b : Bytes) : ofHexDigits? b.hexDigits = some b := by
  induction b with
  | nil => rfl
  | cons x rest ih =>
    have hx : x.toNat < 256 := x.toNat_lt
    have hhi := hexValue?_hexDigit (x.toNat / 16) (by omega)
    have hlo := hexValue?_hexDigit (x.toNat % 16) (by omega)
    have hsum : UInt8.ofNat (16 * (x.toNat / 16) + x.toNat % 16) = x := by
      rw [Nat.div_add_mod, UInt8.ofNat_toNat]
    simp only [hexDigits] at ih
    simp only [hexDigits, List.flatMap_cons, List.cons_append, List.nil_append, ofHexDigits?, hhi,
      hlo, ih, Option.bind_eq_bind, Option.bind_some, hsum]
    rfl

theorem ofHex?_toHex (b : Bytes) : ofHex? b.toHex = some b := by
  simp [ofHex?, toHex, ofHexDigits?_hexDigits]

/-! ## Text -/

def ofText (s : String) : Bytes := s.toByteArray.data.toList

/-- Reads a text from its UTF-8 form; refuses what no text produces. -/
def toText? (b : Bytes) : Option String := String.fromUTF8? ⟨b.toArray⟩

theorem toText?_ofText (s : String) : toText? (ofText s) = some s := by
  obtain ⟨bytes, valid⟩ := s
  simp [toText?, ofText, String.fromUTF8?, String.fromUTF8, valid]

theorem toText?_eq_some_iff {b : Bytes} {s : String} : toText? b = some s ↔ b = ofText s := by
  constructor
  · intro h
    simp only [toText?, String.fromUTF8?, String.fromUTF8, Option.dite_none_right_eq_some,
      Option.some.injEq] at h
    obtain ⟨hvalid, rfl⟩ := h
    simp [ofText]
  · rintro rfl
    exact toText?_ofText s

end Bytes

end Mvcc
