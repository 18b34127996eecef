import Mvcc.Json.Value

/-!
# JSON tokens

The words and marks of a document. Blanks may stand between them.

* `Token.scan?`: the token at the front of a text; by `length_lt_of_scan?` it takes something.
* `Token.all?`: all tokens of a text.
-/

namespace Mvcc.Json

/-- A word or mark of a document. -/
inductive Token where
  | openArray
  | closeArray
  | openObject
  | closeObject
  | colon
  | comma
  | null
  | bool (b : Bool)
  | number (n : Number)
  | string (s : Text)
  deriving DecidableEq

/-- Whether a character may stand between tokens. -/
def isBlank (c : Char) : Bool := c = ' ' || c = '\n' || c = '\t' || c = '\r'

/-! ## Numbers -/

namespace Number

/-- The digits at the front of a text, and the rest; none without a digit. -/
def digits? (cs : List Char) : Option (List Char × List Char) :=
  match cs.takeWhile Char.isDigit with
  | [] => none
  | d :: ds => some (d :: ds, cs.dropWhile Char.isDigit)

/-- Skips a fraction, if there is one, and says whether there was. -/
def skipFraction? : List Char → Option (Bool × List Char)
  | '.' :: rest => (digits? rest).map fun p => (true, p.2)
  | cs => some (false, cs)

/-- Skips the sign of an exponent, if there is one. -/
def skipSign : List Char → List Char
  | '+' :: rest => rest
  | '-' :: rest => rest
  | cs => cs

/-- Skips an exponent, if there is one, and says whether there was. -/
def skipExponent? : List Char → Option (Bool × List Char)
  | 'e' :: rest => (digits? (skipSign rest)).map fun p => (true, p.2)
  | 'E' :: rest => (digits? (skipSign rest)).map fun p => (true, p.2)
  | cs => some (false, cs)

/-- The number without its sign at the front of a text. Only zero itself begins with a zero. -/
def unsigned? (negative : Bool) (cs : List Char) : Option (Number × List Char) := do
  let (ds, rest) ← digits? cs
  if ds.head? = some '0' ∧ ds ≠ ['0'] then none
  else
    let (fraction, rest) ← skipFraction? rest
    let (exponent, rest) ← skipExponent? rest
    if fraction || exponent then return (scientific, rest)
    else return (whole negative (Nat.ofDigitChars 10 ds 0), rest)

def scan? : List Char → Option (Number × List Char)
  | '-' :: rest => unsigned? true rest
  | cs => unsigned? false cs

theorem length_lt_of_digits? {cs ds rest : List Char} (h : digits? cs = some (ds, rest)) :
    rest.length < cs.length := by
  rw [digits?] at h
  split at h
  · contradiction
  · next d ds' htake =>
    simp only [Option.some.injEq, Prod.mk.injEq] at h
    have hsum := congrArg List.length
      (List.takeWhile_append_dropWhile (p := Char.isDigit) (l := cs))
    rw [htake, h.2] at hsum
    simp only [List.length_append, List.length_cons] at hsum
    omega

theorem length_le_of_skipFraction? {cs rest : List Char} {b : Bool}
    (h : skipFraction? cs = some (b, rest)) : rest.length ≤ cs.length := by
  unfold skipFraction? at h
  split at h
  · next r =>
    obtain ⟨p, hp, he⟩ := Option.map_eq_some_iff.1 h
    have := length_lt_of_digits? hp
    simp only [Prod.mk.injEq] at he
    simp only [List.length_cons, ← he.2]
    omega
  · simp only [Option.some.injEq, Prod.mk.injEq] at h
    exact Nat.le_of_eq (congrArg List.length h.2.symm)

theorem length_skipSign_le (cs : List Char) : (skipSign cs).length ≤ cs.length := by
  unfold skipSign
  split <;> simp

theorem length_le_of_skipExponent? {cs rest : List Char} {b : Bool}
    (h : skipExponent? cs = some (b, rest)) : rest.length ≤ cs.length := by
  unfold skipExponent? at h
  split at h
  case h_3 =>
    simp only [Option.some.injEq, Prod.mk.injEq] at h
    exact Nat.le_of_eq (congrArg List.length h.2.symm)
  all_goals
    next r =>
      obtain ⟨p, hp, he⟩ := Option.map_eq_some_iff.1 h
      have := length_lt_of_digits? hp
      have := length_skipSign_le r
      simp only [Prod.mk.injEq] at he
      simp only [List.length_cons, ← he.2]
      omega

theorem length_lt_of_unsigned? {cs rest : List Char} {b : Bool} {n : Number}
    (h : unsigned? b cs = some (n, rest)) : rest.length < cs.length := by
  simp only [unsigned?, Option.bind_eq_bind, Option.bind_eq_some_iff] at h
  obtain ⟨⟨ds, r₁⟩, h₁, h⟩ := h
  have := length_lt_of_digits? h₁
  simp only at h
  split at h
  · contradiction
  · simp only [Option.bind_eq_some_iff] at h
    obtain ⟨⟨f, r₂⟩, h₂, ⟨e, r₃⟩, h₃, h⟩ := h
    have := length_le_of_skipFraction? h₂
    have := length_le_of_skipExponent? h₃
    simp only at h
    split at h <;> simp_all <;> omega

theorem length_lt_of_scan? {cs rest : List Char} {n : Number}
    (h : scan? cs = some (n, rest)) : rest.length < cs.length := by
  unfold scan? at h
  split at h
  · have := length_lt_of_unsigned? h
    simp only [List.length_cons]
    omega
  · exact length_lt_of_unsigned? h

end Number

/-! ## All tokens -/

namespace Token

/-- The token at the front of a text, and the rest. -/
def scan? : List Char → Option (Token × List Char)
  | '[' :: rest => some (openArray, rest)
  | ']' :: rest => some (closeArray, rest)
  | '{' :: rest => some (openObject, rest)
  | '}' :: rest => some (closeObject, rest)
  | ':' :: rest => some (colon, rest)
  | ',' :: rest => some (comma, rest)
  | 'n' :: 'u' :: 'l' :: 'l' :: rest => some (null, rest)
  | 't' :: 'r' :: 'u' :: 'e' :: rest => some (bool true, rest)
  | 'f' :: 'a' :: 'l' :: 's' :: 'e' :: rest => some (bool false, rest)
  | '"' :: rest =>
    (Quoted.scan [] rest).map fun p => (string ((Quoted.join? p.1).map String.ofList), p.2)
  | cs => (Number.scan? cs).map fun p => (number p.1, p.2)

theorem length_lt_of_scan? {cs rest : List Char} {t : Token} (h : scan? cs = some (t, rest)) :
    rest.length < cs.length := by
  unfold scan? at h
  split at h
  case h_10 =>
    obtain ⟨⟨pieces, r⟩, hp, he⟩ := Option.map_eq_some_iff.1 h
    have := Quoted.length_lt_of_scan hp
    simp only [Prod.mk.injEq] at he
    simp only [List.length_cons, ← he.2]
    omega
  case h_11 =>
    obtain ⟨⟨n, r⟩, hp, he⟩ := Option.map_eq_some_iff.1 h
    have := Number.length_lt_of_scan? hp
    simp only [Prod.mk.injEq] at he
    rw [← he.2]
    exact this
  all_goals
    simp only [Option.some.injEq, Prod.mk.injEq] at h
    simp only [List.length_cons, h.2]
    omega

/-- All tokens of a text, behind those found before. -/
def allFrom? (found : List Token) (cs : List Char) : Option (List Token) :=
  match cs with
  | [] => some found.reverse
  | c :: rest =>
    if isBlank c then allFrom? found rest
    else
      match h : scan? (c :: rest) with
      | none => none
      | some (t, after) =>
        have := length_lt_of_scan? h
        allFrom? (t :: found) after
termination_by cs.length
decreasing_by
  · simp
  · exact this

def all? (cs : List Char) : Option (List Token) := allFrom? [] cs

end Token

end Mvcc.Json
