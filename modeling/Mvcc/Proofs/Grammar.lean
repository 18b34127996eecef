import Mathlib.Data.List.Basic
import Mathlib.Tactic.IntervalCases
import Mvcc.Json.Document

/-!
# The grammar of documents

How a value may be written: with blanks between tokens, with escapes for characters in any of their
forms, with digits in place of a number. The grammar says which texts these are and knows nothing of
how they are read; the reader takes every one of them for the value that it spells.

* `Quoted.Piece.Spelled`, `Quoted.Spelled`, `Number.Spelled`, `Token.Spelled`: the ways to write the
  parts of a document.
* `Value.tokens`, `Laid`: the tokens of a value, and texts that lay tokens out.
* `Quoted.scan_spells`, `Number.scan?_spelled`, `Token.all?_laid`: the reader finds the tokens.
* `Value.ofTokens?_tokens`, `Value.ofText?_of_laid`: it finds the value.
* `Value.laid_render`: what is printed is one of the texts.
-/

namespace Mvcc.Json

/-- Texts one behind the other, each of which spells an item of a list. -/
inductive Spells {α : Type} (spelled : α → List Char → Prop) : List α → List Char → Prop
  | nil : Spells spelled [] []
  | cons {a : α} {as : List α} {cs cs' : List Char} (head : spelled a cs)
    (tail : Spells spelled as cs') : Spells spelled (a :: as) (cs ++ cs')

/-! ## Texts between quotes -/

namespace Quoted

/-- The letters that stand behind a backslash, with what they mean there. -/
def letters : List (Char × Char) :=
  [('"', '"'), ('\\', '\\'), ('/', '/'), ('b', '\x08'), ('f', '\x0c'), ('n', '\n'), ('r', '\r'),
    ('t', '\t')]

/-- A hexadecimal digit, in lower or upper case. -/
def IsHex (d : Char) (n : Nat) : Prop := n < 16 ∧ (d = n.digitChar ∨ d = n.digitChar.toUpper)

/-- Four hexadecimal digits. -/
inductive IsUnit : Nat → List Char → Prop
  | digits {a b c d : Char} {w x y z : Nat} (ha : IsHex a w) (hb : IsHex b x) (hc : IsHex c y)
    (hd : IsHex d z) : IsUnit (((w * 16 + x) * 16 + y) * 16 + z) [a, b, c, d]

/-- The ways to write a character, or half of one, in one piece. -/
inductive Piece.Spelled : Piece → List Char → Prop
  | plain {c : Char} (quote : c ≠ '"') (backslash : c ≠ '\\') (control : ' ' ≤ c) :
    Spelled (.char c) [c]
  | letter {e c : Char} (mem : (e, c) ∈ letters) : Spelled (.char c) ['\\', e]
  | unit {n : Nat} {cs : List Char} (digits : IsUnit n cs) (whole : n < 0xD800 ∨ 0xE000 ≤ n) :
    Spelled (.char (Char.ofNat n)) ('\\' :: 'u' :: cs)
  | half {n : Nat} {cs : List Char} (digits : IsUnit n cs) (least : 0xD800 ≤ n)
    (most : n < 0xE000) : Spelled (.half n) ('\\' :: 'u' :: cs)

/-- The ways to write a character: in one piece, or as two halves. -/
inductive Spelled : Char → List Char → Prop
  | piece {c : Char} {cs : List Char} (spelled : Piece.Spelled (.char c) cs) : Spelled c cs
  | halves {high low : Nat} {cs cs' : List Char} (first : Piece.Spelled (.half high) cs)
    (second : Piece.Spelled (.half low) cs') (high_lt : high < 0xDC00) (le_low : 0xDC00 ≤ low) :
    Spelled (Char.ofNat (0x10000 + (high - 0xD800) * 0x400 + (low - 0xDC00))) (cs ++ cs')

theorem hexValue?_of_isHex {d : Char} {n : Nat} (h : IsHex d n) : Bytes.hexValue? d = some n := by
  obtain ⟨hlt, rfl | rfl⟩ := h <;> interval_cases n <;> rfl

theorem unit?_of_isUnit {n : Nat} {cs : List Char} (h : IsUnit n cs) :
    ∃ a b c d, cs = [a, b, c, d] ∧ unit? a b c d = some n := by
  obtain ⟨ha, hb, hc, hd⟩ := h
  refine ⟨_, _, _, _, rfl, ?_⟩
  simp [unit?, hexValue?_of_isHex ha, hexValue?_of_isHex hb, hexValue?_of_isHex hc,
    hexValue?_of_isHex hd]

theorem scan_unit {n : Nat} {cs : List Char} (h : IsUnit n cs) (found : List Piece)
    (rest : List Char) :
    scan found ('\\' :: 'u' :: cs ++ rest) = scan (.ofUnit n :: found) rest := by
  obtain ⟨a, b, c, d, rfl, hunit⟩ := unit?_of_isUnit h
  simp [scan, hunit]

theorem scan_piece {p : Piece} {cs : List Char} (h : p.Spelled cs) (found : List Piece)
    (rest : List Char) : scan found (cs ++ rest) = scan (p :: found) rest := by
  cases h with
  | @plain c quote backslash control =>
    have hcontrol : ¬ c < ' ' := Char.not_lt.2 control
    simp [scan, backslash, hcontrol]
  | @letter e c mem =>
    simp only [letters, List.mem_cons, Prod.mk.injEq, List.not_mem_nil, or_false] at mem
    rcases mem with ⟨rfl, rfl⟩ | ⟨rfl, rfl⟩ | ⟨rfl, rfl⟩ | ⟨rfl, rfl⟩ | ⟨rfl, rfl⟩ | ⟨rfl, rfl⟩ |
      ⟨rfl, rfl⟩ | ⟨rfl, rfl⟩ <;> rfl
  | @unit n cs digits whole =>
    have hchar : Piece.ofUnit n = .char (Char.ofNat n) := if_neg (by omega)
    rw [← hchar]
    exact scan_unit digits found rest
  | @half n cs digits least most =>
    have hhalf : Piece.ofUnit n = .half n := if_pos ⟨least, most⟩
    rw [← hhalf]
    exact scan_unit digits found rest

theorem scan_spells {ps : List Piece} {cs : List Char} (h : Spells Piece.Spelled ps cs)
    (found : List Piece) (rest : List Char) :
    scan found (cs ++ '"' :: rest) = some (found.reverse ++ ps, rest) := by
  induction h generalizing found with
  | nil => simp [scan]
  | cons head tail ih =>
    rw [List.append_assoc, scan_piece head, ih]
    simp

/-- A text is spelled in one way out of pieces. -/
theorem spells_unique {ps ps' : List Piece} {cs : List Char} (h : Spells Piece.Spelled ps cs)
    (h' : Spells Piece.Spelled ps' cs) : ps = ps' := by
  have hscan := scan_spells h [] []
  rw [scan_spells h' [] []] at hscan
  simpa using hscan.symm

theorem exists_pieces {s cs : List Char} (h : Spells Spelled s cs) :
    ∃ ps, Spells Piece.Spelled ps cs ∧ join? ps = some s := by
  induction h with
  | nil => exact ⟨[], .nil, rfl⟩
  | cons head tail ih =>
    obtain ⟨ps, hps, hjoin⟩ := ih
    cases head with
    | piece spelled => exact ⟨_, .cons spelled hps, by simp [join?, hjoin]⟩
    | @halves high low _ _ first second high_lt le_low =>
      refine ⟨.half high :: .half low :: ps, ?_, ?_⟩
      · rw [List.append_assoc]
        exact .cons first (.cons second hps)
      · simp [join?, hjoin, high_lt, le_low]

theorem spells_of_join? {ps : List Piece} {s cs : List Char} (h : Spells Piece.Spelled ps cs)
    (join : join? ps = some s) : Spells Spelled s cs := by
  induction ps using join?.induct generalizing s cs with
  | case1 =>
    cases h
    cases join
    exact .nil
  | case2 c rest ih =>
    obtain _ | ⟨head, tail⟩ := h
    rw [join?, Option.map_eq_some_iff] at join
    obtain ⟨s, hs, rfl⟩ := join
    exact .cons (.piece head) (ih tail hs)
  | case3 high low rest hranges ih =>
    obtain _ | ⟨first, tail⟩ := h
    obtain _ | ⟨second, tail⟩ := tail
    rw [join?, if_pos hranges] at join
    obtain ⟨s, hs, rfl⟩ := Option.map_eq_some_iff.1 join
    rw [← List.append_assoc]
    exact .cons (.halves first second hranges.1 hranges.2) (ih tail hs)
  | case4 high low rest hranges =>
    rw [join?, if_neg hranges] at join
    cases join
  | case5 unit rest hrest =>
    rw [join?] at join
    · cases join
    · exact hrest

end Quoted

/-- The ways to write a text between its quotes. Where halves of characters stand alone there are
pieces, but no text. -/
inductive Text.Spelled : Text → List Char → Prop
  | text {s : String} {cs : List Char} (spells : Spells Quoted.Spelled s.toList cs) :
    Spelled (some s) cs
  | lone {ps : List Quoted.Piece} {cs : List Char} (spells : Spells Quoted.Piece.Spelled ps cs)
    (lone : ∀ s, ¬ Spells Quoted.Spelled s cs) : Spelled none cs

theorem Text.spelled_of_pieces {ps : List Quoted.Piece} {cs : List Char}
    (h : Spells Quoted.Piece.Spelled ps cs) :
    Text.Spelled ((Quoted.join? ps).map String.ofList) cs := by
  cases hjoin : Quoted.join? ps with
  | none =>
    refine .lone h fun s hs => ?_
    obtain ⟨ps', hps', hsome⟩ := Quoted.exists_pieces hs
    rw [Quoted.spells_unique hps' h, hjoin] at hsome
    cases hsome
  | some s =>
    have hspells := Quoted.spells_of_join? h hjoin
    exact .text (by simpa using hspells)

theorem Text.Spelled.exists_scan {t : Text} {cs : List Char} (h : Spelled t cs) (rest : List Char) :
    ∃ ps, Quoted.scan [] (cs ++ '"' :: rest) = some (ps, rest) ∧
      (Quoted.join? ps).map String.ofList = t := by
  cases h with
  | text spells =>
    obtain ⟨ps, hps, hjoin⟩ := Quoted.exists_pieces spells
    exact ⟨ps, Quoted.scan_spells hps [] rest, by simp [hjoin]⟩
  | @lone ps _ spells lone =>
    refine ⟨ps, Quoted.scan_spells spells [] rest, ?_⟩
    cases hjoin : Quoted.join? ps with
    | none => rfl
    | some s => exact absurd (Quoted.spells_of_join? spells hjoin) (lone s)

/-! ## Numbers -/

namespace Number

def IsDigits (ds : List Char) : Prop := ds ≠ [] ∧ ∀ d ∈ ds, d.isDigit = true

/-- A whole number, without a zero in front of it. -/
def integer (negative : Bool) (n : Nat) : List Char :=
  (if negative then ['-'] else []) ++ Nat.toDigits 10 n

inductive IsFraction : List Char → Prop
  | digits {ds : List Char} (h : IsDigits ds) : IsFraction ('.' :: ds)

inductive IsExponent : List Char → Prop
  | digits {e : Char} {sign ds : List Char} (mark : e = 'e' ∨ e = 'E')
    (sign_eq : sign = [] ∨ sign = ['+'] ∨ sign = ['-']) (h : IsDigits ds) :
    IsExponent (e :: (sign ++ ds))

/-- The ways to write a number. -/
inductive Spelled : Number → List Char → Prop
  | whole (negative : Bool) (n : Nat) : Spelled (whole negative n) (integer negative n)
  | fraction (negative : Bool) (n : Nat) {fs : List Char} (f : IsFraction fs) :
    Spelled scientific (integer negative n ++ fs)
  | exponent (negative : Bool) (n : Nat) {es : List Char} (e : IsExponent es) :
    Spelled scientific (integer negative n ++ es)
  | both (negative : Bool) (n : Nat) {fs es : List Char} (f : IsFraction fs) (e : IsExponent es) :
    Spelled scientific (integer negative n ++ (fs ++ es))

/-- No digit comes next. -/
def NoDigit (rest : List Char) : Prop := ∀ c ∈ rest.head?, c.isDigit = false

/-- Nothing comes next that would make a number longer. -/
def Ends (rest : List Char) : Prop :=
  ∀ c ∈ rest.head?, c.isDigit = false ∧ c ≠ '.' ∧ c ≠ 'e' ∧ c ≠ 'E'

variable {ds fs es rest : List Char}

theorem Ends.noDigit (h : Ends rest) : NoDigit rest := fun c hc => (h c hc).1

theorem digits?_append (h : IsDigits ds) (hrest : NoDigit rest) :
    digits? (ds ++ rest) = some (ds, rest) := by
  have htake : rest.takeWhile Char.isDigit = [] := by
    cases rest with
    | nil => rfl
    | cons c rest => simp [hrest c rfl]
  have hdrop : rest.dropWhile Char.isDigit = rest := by
    cases rest with
    | nil => rfl
    | cons c rest => simp [hrest c rfl]
  obtain ⟨hne, hall⟩ := h
  rw [digits?, List.takeWhile_append_of_pos hall, List.dropWhile_append_of_pos hall, htake, hdrop,
    List.append_nil]
  cases ds with
  | nil => exact absurd rfl hne
  | cons d ds => rfl

theorem isDigits_toDigits (n : Nat) : IsDigits (Nat.toDigits 10 n) :=
  ⟨Nat.toDigits_ne_nil, fun _ hd => Nat.isDigit_of_mem_toDigits (by decide) (by decide) hd⟩

theorem head?_toDigits {n : Nat} (hpos : 0 < n) : (Nat.toDigits 10 n).head? ≠ some '0' := by
  induction n using Nat.strong_induction_on with
  | _ n ih =>
    by_cases hlt : n < 10
    · rw [Nat.toDigits_of_lt_base hlt]
      interval_cases n <;> decide
    · rw [Nat.toDigits_of_base_le (by decide) (by omega), List.head?_append_of_ne_nil]
      · exact ih (n / 10) (by omega) (by omega)
      · exact Nat.toDigits_ne_nil

theorem skipFraction?_of_ne (h : ∀ c ∈ rest.head?, c ≠ '.') :
    skipFraction? rest = some (false, rest) := by
  unfold skipFraction?
  split
  · exact absurd rfl (h '.' rfl)
  · rfl

theorem skipExponent?_of_ne (h : ∀ c ∈ rest.head?, c ≠ 'e' ∧ c ≠ 'E') :
    skipExponent? rest = some (false, rest) := by
  unfold skipExponent?
  split
  · exact absurd rfl (h 'e' rfl).1
  · exact absurd rfl (h 'E' rfl).2
  · rfl

theorem skipFraction?_append (h : IsFraction fs) (hrest : NoDigit rest) :
    skipFraction? (fs ++ rest) = some (true, rest) := by
  obtain ⟨hds⟩ := h
  simp [skipFraction?, digits?_append hds hrest]

theorem skipSign_append {sign : List Char} (h : sign = [] ∨ sign = ['+'] ∨ sign = ['-'])
    (hds : IsDigits ds) (rest : List Char) : skipSign (sign ++ ds ++ rest) = ds ++ rest := by
  rcases h with rfl | rfl | rfl
  · obtain ⟨hne, hall⟩ := hds
    cases ds with
    | nil => exact absurd rfl hne
    | cons d ds =>
      have hdigit := hall d List.mem_cons_self
      simp only [List.nil_append, List.cons_append]
      unfold skipSign
      split <;> simp_all
  · rfl
  · rfl

theorem skipExponent?_append (h : IsExponent es) (hrest : NoDigit rest) :
    skipExponent? (es ++ rest) = some (true, rest) := by
  obtain ⟨mark, sign_eq, hds⟩ := h
  rcases mark with rfl | rfl <;>
    simp [skipExponent?, -List.append_assoc, skipSign_append sign_eq hds, digits?_append hds hrest]

/-- What follows the digits decides what a number is. -/
theorem unsigned?_integer (negative : Bool) (n : Nat) (hrest : NoDigit rest) :
    unsigned? negative (Nat.toDigits 10 n ++ rest) =
      (skipFraction? rest).bind fun p => (skipExponent? p.2).bind fun q =>
        some (if p.1 || q.1 then scientific else whole negative n, q.2) := by
  have hzero : ¬ ((Nat.toDigits 10 n).head? = some '0' ∧ Nat.toDigits 10 n ≠ ['0']) := by
    rintro ⟨hhead, hne⟩
    rcases Nat.eq_zero_or_pos n with rfl | hpos
    · exact hne rfl
    · exact head?_toDigits hpos hhead
  have hvalue : Nat.ofDigitChars 10 (Nat.toDigits 10 n) 0 = n :=
    Nat.ofDigitChars_toDigits (by decide) (by decide)
  simp only [unsigned?, digits?_append (isDigits_toDigits n) hrest, Option.bind_eq_bind,
    Option.bind_some, if_neg hzero, hvalue]
  congr 1
  funext p
  congr 1
  funext q
  split_ifs <;> rfl

theorem scan?_integer (negative : Bool) (n : Nat) (rest : List Char) :
    scan? (integer negative n ++ rest) = unsigned? negative (Nat.toDigits 10 n ++ rest) := by
  cases negative with
  | true => rfl
  | false =>
    have hall := (isDigits_toDigits n).2
    show scan? (Nat.toDigits 10 n ++ rest) = _
    cases hds : Nat.toDigits 10 n with
    | nil => exact absurd hds Nat.toDigits_ne_nil
    | cons d ds =>
      have hdigit := hall d (by simp [hds])
      rw [List.cons_append]
      unfold scan?
      split
      · simp_all
      · rfl

theorem scan?_spelled {n : Number} {cs : List Char} (h : n.Spelled cs) (ends : Ends rest) :
    scan? (cs ++ rest) = some (n, rest) := by
  have hfraction : skipFraction? rest = some (false, rest) :=
    skipFraction?_of_ne fun c hc => (ends c hc).2.1
  have hexponent : skipExponent? rest = some (false, rest) :=
    skipExponent?_of_ne fun c hc => (ends c hc).2.2
  cases h with
  | whole negative n =>
    rw [scan?_integer, unsigned?_integer _ _ ends.noDigit, hfraction]
    simp [hexponent]
  | @fraction negative n fs f =>
    rw [List.append_assoc, scan?_integer, unsigned?_integer, skipFraction?_append f ends.noDigit]
    · simp [hexponent]
    · obtain ⟨-⟩ := f
      simp [NoDigit]
  | @exponent negative n es e =>
    have hes : skipFraction? (es ++ rest) = some (false, es ++ rest) := by
      refine skipFraction?_of_ne ?_
      obtain ⟨rfl | rfl, -⟩ := e <;> simp
    rw [List.append_assoc, scan?_integer, unsigned?_integer, hes]
    · simp [skipExponent?_append e ends.noDigit]
    · obtain ⟨rfl | rfl, -⟩ := e <;> simp [NoDigit]
  | @both negative n fs es f e =>
    have hes : NoDigit (es ++ rest) := by
      obtain ⟨rfl | rfl, -⟩ := e <;> simp [NoDigit]
    rw [List.append_assoc, List.append_assoc, scan?_integer, unsigned?_integer,
      skipFraction?_append f hes]
    · simp [skipExponent?_append e ends.noDigit]
    · obtain ⟨-⟩ := f
      simp [NoDigit]

theorem Spelled.exists_cons {n : Number} {cs : List Char} (h : n.Spelled cs) :
    ∃ c cs', cs = c :: cs' ∧ (c = '-' ∨ c.isDigit = true) := by
  have hinteger : ∀ (negative : Bool) (m : Nat) (tail : List Char),
      ∃ c cs', integer negative m ++ tail = c :: cs' ∧ (c = '-' ∨ c.isDigit = true) := by
    intro negative m tail
    cases negative with
    | true => exact ⟨_, _, rfl, Or.inl rfl⟩
    | false =>
      obtain ⟨hne, hall⟩ := isDigits_toDigits m
      obtain ⟨d, ds, hds⟩ := List.exists_cons_of_ne_nil hne
      refine ⟨d, ds ++ tail, ?_, Or.inr (hall d (by simp [hds]))⟩
      simp [integer, hds]
  cases h with
  | whole negative m => simpa using hinteger negative m []
  | fraction negative m => exact hinteger negative m _
  | exponent negative m => exact hinteger negative m _
  | both negative m => exact hinteger negative m _

end Number

/-! ## Tokens -/

/-- The ways to write a token. -/
inductive Token.Spelled : Token → List Char → Prop
  | openArray : Spelled .openArray ['[']
  | closeArray : Spelled .closeArray [']']
  | openObject : Spelled .openObject ['{']
  | closeObject : Spelled .closeObject ['}']
  | colon : Spelled .colon [':']
  | comma : Spelled .comma [',']
  | null : Spelled .null "null".toList
  | yes : Spelled (.bool true) "true".toList
  | no : Spelled (.bool false) "false".toList
  | number {n : Number} {cs : List Char} (h : n.Spelled cs) : Spelled (.number n) cs
  | string {t : Text} {cs : List Char} (h : t.Spelled cs) :
    Spelled (.string t) ('"' :: (cs ++ ['"']))

/-- Texts that lay tokens out, with blanks before, between and behind them. -/
inductive Laid : List Token → List Char → Prop
  | done {bs : List Char} (blank : ∀ b ∈ bs, isBlank b = true) : Laid [] bs
  | token {bs cs rest : List Char} {t : Token} {ts : List Token}
    (blank : ∀ b ∈ bs, isBlank b = true) (spelled : t.Spelled cs) (laid : Laid ts rest) : Laid (t :: ts) (bs ++ (cs ++ rest))

namespace Token

/-- What may come after a number. -/
def IsMark : Token → Prop
  | comma | closeArray | closeObject => True
  | _ => False

/-- A number is last or comes before a mark. -/
def Parted : List Token → Prop
  | [] => True
  | .number _ :: rest => (∀ t ∈ rest.head?, t.IsMark) ∧ Parted rest
  | _ :: rest => Parted rest

variable {t : Token} {ts : List Token} {cs rest : List Char}

theorem Spelled.exists_cons (h : t.Spelled cs) :
    ∃ c cs', cs = c :: cs' ∧ isBlank c = false := by
  cases h with
  | number h =>
    obtain ⟨c, cs', rfl, hc⟩ := h.exists_cons
    refine ⟨c, cs', rfl, ?_⟩
    rw [Bool.eq_false_iff, isBlank]
    intro hblank
    simp only [Bool.or_eq_true, decide_eq_true_eq, or_assoc] at hblank
    rcases hblank with rfl | rfl | rfl | rfl <;> simp at hc
  | string h => exact ⟨_, _, rfl, rfl⟩
  | _ => exact ⟨_, _, rfl, rfl⟩

theorem scan?_spelled (h : t.Spelled cs)
    (ends : ∀ n, t = .number n → Number.Ends rest) : scan? (cs ++ rest) = some (t, rest) := by
  cases h with
  | @number n cs h =>
    have hscan := Number.scan?_spelled h (ends n rfl)
    -- no mark, word or quote begins as a number does, so the last case is left
    obtain ⟨c, cs', rfl, hc⟩ := h.exists_cons
    unfold scan?
    split
    case h_11 => rw [hscan]; rfl
    all_goals
      next heq =>
        rw [List.cons_append, List.cons.injEq] at heq
        rw [heq.1] at hc
        simp at hc
  | @string t cs h =>
    obtain ⟨ps, hscan, hjoin⟩ := h.exists_scan rest
    simp [scan?, hscan, hjoin]
  | _ => rfl

theorem allFrom?_blanks (found : List Token) {bs : List Char} (h : ∀ b ∈ bs, isBlank b = true)
    (cs : List Char) : allFrom? found (bs ++ cs) = allFrom? found cs := by
  induction bs with
  | nil => rfl
  | cons b bs ih =>
    rw [List.cons_append, allFrom?, if_pos (h b List.mem_cons_self)]
    exact ih fun b' hb' => h b' (List.mem_cons_of_mem _ hb')

theorem allFrom?_token (found : List Token) (h : t.Spelled cs)
    (ends : ∀ n, t = .number n → Number.Ends rest) :
    allFrom? found (cs ++ rest) = allFrom? (t :: found) rest := by
  have hscan := scan?_spelled h ends
  obtain ⟨c, cs', rfl, hblank⟩ := h.exists_cons
  rw [List.cons_append] at hscan ⊢
  rw [allFrom?, if_neg (by simp [hblank])]
  split
  · next hnone =>
    rw [hscan] at hnone
    cases hnone
  · next t' after hsome =>
    rw [hscan] at hsome
    cases hsome
    rfl

theorem ends_cons_of_isBlank {b : Char} (h : isBlank b = true) (rest : List Char) :
    Number.Ends (b :: rest) := by
  intro c hc
  obtain rfl : b = c := by simpa using hc
  simp only [isBlank, Bool.or_eq_true, decide_eq_true_eq, or_assoc] at h
  rcases h with rfl | rfl | rfl | rfl <;> simp

theorem ends_of_laid (h : Laid ts cs) (marks : ∀ t ∈ ts.head?, t.IsMark) : Number.Ends cs := by
  cases h with
  | @done bs blank =>
    -- nothing but blanks comes next
    cases cs with
    | nil => simp [Number.Ends]
    | cons b bs => exact ends_cons_of_isBlank (blank b List.mem_cons_self) bs
  | @token bs cs rest t ts blank spelled laid =>
    cases bs with
    | nil =>
      have hmark := marks t rfl
      cases spelled <;> first | exact absurd hmark id | simp [Number.Ends]
    | cons b bs => exact ends_cons_of_isBlank (blank b List.mem_cons_self) _

theorem Parted.tail (h : Parted (t :: ts)) : Parted ts := by
  cases t <;> first | exact h | exact h.2

theorem allFrom?_laid (h : Laid ts cs) (parted : Parted ts) (found : List Token) :
    allFrom? found cs = some (found.reverse ++ ts) := by
  induction h generalizing found with
  | @done bs blank =>
    have hblanks := allFrom?_blanks found blank []
    rw [List.append_nil] at hblanks
    rw [hblanks, allFrom?, List.append_nil]
  | @token bs cs rest t ts blank spelled laid ih =>
    have ends : ∀ n, t = .number n → Number.Ends rest := by
      rintro n rfl
      exact ends_of_laid laid parted.1
    rw [allFrom?_blanks found blank, allFrom?_token found spelled ends, ih parted.tail]
    simp

theorem all?_laid (h : Laid ts cs) (parted : Parted ts) : all? cs = some ts :=
  allFrom?_laid h parted []

end Token

/-! ## Values -/

namespace Value

mutual

/-- The tokens of a value. -/
def tokens : Value → List Token
  | null => [.null]
  | bool b => [.bool b]
  | number n => [.number n]
  | string s => [.string s]
  | array [] => [.openArray, .closeArray]
  | array (v :: rest) => .openArray :: (tokens v ++ itemTokens rest)
  | object [] => [.openObject, .closeObject]
  | object ((name, v) :: rest) =>
    .openObject :: .string name :: .colon :: (tokens v ++ fieldTokens rest)

/-- The tokens of the items after the first, and of the end of the array. -/
def itemTokens : List Value → List Token
  | [] => [.closeArray]
  | v :: rest => .comma :: (tokens v ++ itemTokens rest)

/-- The tokens of the fields after the first, and of the end of the object. -/
def fieldTokens : List (Text × Value) → List Token
  | [] => [.closeObject]
  | (name, v) :: rest => .comma :: .string name :: .colon :: (tokens v ++ fieldTokens rest)

end

theorem isMark_itemTokens (vs : List Value) (rest : List Token) :
    ∀ t ∈ (itemTokens vs ++ rest).head?, t.IsMark := by
  cases vs <;> simp [itemTokens, Token.IsMark]

theorem isMark_fieldTokens (fs : List (Text × Value)) (rest : List Token) :
    ∀ t ∈ (fieldTokens fs ++ rest).head?, t.IsMark := by
  cases fs <;> simp [fieldTokens, Token.IsMark]

mutual

theorem parted_tokens (v : Value) {rest : List Token} (marks : ∀ t ∈ rest.head?, t.IsMark)
    (parted : Token.Parted rest) : Token.Parted (tokens v ++ rest) :=
  match v with
  | null | bool _ | string _ => parted
  | number _ => ⟨marks, parted⟩
  | array [] => parted
  | array (v :: vs) => by
    rw [tokens, List.cons_append, List.append_assoc]
    exact parted_tokens v (isMark_itemTokens vs rest) (parted_itemTokens vs parted)
  | object [] => parted
  | object ((name, v) :: fs) => by
    rw [tokens, List.cons_append, List.cons_append, List.cons_append, List.append_assoc]
    exact parted_tokens v (isMark_fieldTokens fs rest) (parted_fieldTokens fs parted)

theorem parted_itemTokens (vs : List Value) {rest : List Token} (parted : Token.Parted rest) :
    Token.Parted (itemTokens vs ++ rest) :=
  match vs with
  | [] => parted
  | v :: vs => by
    rw [itemTokens, List.cons_append, List.append_assoc]
    exact parted_tokens v (isMark_itemTokens vs rest) (parted_itemTokens vs parted)

theorem parted_fieldTokens (fs : List (Text × Value)) {rest : List Token}
    (parted : Token.Parted rest) : Token.Parted (fieldTokens fs ++ rest) :=
  match fs with
  | [] => parted
  | (name, v) :: fs => by
    rw [fieldTokens, List.cons_append, List.cons_append, List.cons_append, List.append_assoc]
    exact parted_tokens v (isMark_fieldTokens fs rest) (parted_fieldTokens fs parted)

end

theorem foldlM_firstItem (v : Value) (around : List Frame) (rest : List Token) :
    (tokens v ++ rest).foldlM Reading.step (.firstItem around) =
      (tokens v ++ rest).foldlM Reading.step (.value (.array [] :: around)) := by
  cases v with
  | array vs => cases vs <;> rfl
  | object fs => rcases fs with _ | ⟨⟨name, v⟩, fs⟩ <;> rfl
  | null | bool b | number n | string s => rfl

mutual

theorem foldlM_tokens (v : Value) (around : List Frame) (rest : List Token) :
    (tokens v ++ rest).foldlM Reading.step (.value around) =
      rest.foldlM Reading.step (.finish v around) :=
  match v with
  | null | bool _ | number _ | string _ | array [] | object [] => rfl
  | array (v :: vs) => by
    rw [tokens, List.cons_append, List.append_assoc]
    show (tokens v ++ (itemTokens vs ++ rest)).foldlM Reading.step (.firstItem around) = _
    rw [foldlM_firstItem, foldlM_tokens v]
    exact foldlM_itemTokens vs [v] around rest
  | object ((name, v) :: fs) => by
    rw [tokens, List.cons_append, List.cons_append, List.cons_append, List.append_assoc]
    show (tokens v ++ (fieldTokens fs ++ rest)).foldlM Reading.step
      (.value (.object [] name :: around)) = _
    rw [foldlM_tokens v]
    exact foldlM_fieldTokens fs [(name, v)] around rest

theorem foldlM_itemTokens (vs items : List Value) (around : List Frame) (rest : List Token) :
    (itemTokens vs ++ rest).foldlM Reading.step (.afterItem items around) =
      rest.foldlM Reading.step (.finish (.array (items.reverse ++ vs)) around) :=
  match vs with
  | [] => by
    rw [List.append_nil]
    rfl
  | v :: vs => by
    rw [itemTokens, List.cons_append, List.append_assoc]
    show (tokens v ++ (itemTokens vs ++ rest)).foldlM Reading.step
      (.value (.array items :: around)) = _
    rw [foldlM_tokens v]
    have hitems := foldlM_itemTokens vs (v :: items) around rest
    rwa [List.reverse_cons, List.append_assoc] at hitems

theorem foldlM_fieldTokens (fs fields : List (Text × Value)) (around : List Frame)
    (rest : List Token) :
    (fieldTokens fs ++ rest).foldlM Reading.step (.afterField fields around) =
      rest.foldlM Reading.step (.finish (.object (fields.reverse ++ fs)) around) :=
  match fs with
  | [] => by
    rw [List.append_nil]
    rfl
  | (name, v) :: fs => by
    rw [fieldTokens, List.cons_append, List.cons_append, List.cons_append, List.append_assoc]
    show (tokens v ++ (fieldTokens fs ++ rest)).foldlM Reading.step
      (.value (.object fields name :: around)) = _
    rw [foldlM_tokens v]
    have hfields := foldlM_fieldTokens fs ((name, v) :: fields) around rest
    rwa [List.reverse_cons, List.append_assoc] at hfields

end

theorem ofTokens?_tokens (v : Value) : ofTokens? v.tokens = some v := by
  have hread := foldlM_tokens v [] []
  rw [List.append_nil] at hread
  rw [ofTokens?, hread]
  rfl

/-- Every text that lays a value out is read as the value. -/
theorem ofText?_of_laid {v : Value} {document : String} (h : Laid v.tokens document.toList) :
    ofText? document = some v := by
  have parted : Token.Parted v.tokens := by
    have hparted : Token.Parted (v.tokens ++ []) := parted_tokens v (by simp) trivial
    rwa [List.append_nil] at hparted
  rw [ofText?, Token.all?_laid h parted, Option.bind_some, ofTokens?_tokens]

end Value

/-! ## What is printed -/

theorem isHex_hexDigit {n : Nat} (h : n < 16) : Quoted.IsHex (Bytes.hexDigit n) n := by
  refine ⟨h, Or.inl ?_⟩
  interval_cases n <;> rfl

theorem Quoted.isUnit_control {n : Nat} (h : n < 32) :
    IsUnit n ['0', '0', Bytes.hexDigit (n / 16), Bytes.hexDigit (n % 16)] := by
  have hsum : ((0 * 16 + 0) * 16 + n / 16) * 16 + n % 16 = n := by omega
  have hzero : IsHex '0' 0 := ⟨by decide, Or.inl rfl⟩
  have hhigh : IsHex (Bytes.hexDigit (n / 16)) (n / 16) := isHex_hexDigit (by omega)
  have hlow : IsHex (Bytes.hexDigit (n % 16)) (n % 16) := isHex_hexDigit (by omega)
  have digits := IsUnit.digits hzero hzero hhigh hlow
  rwa [hsum] at digits

theorem Quoted.spelled_escape (c : Char) : Spelled c (escape c) := by
  have hletter : ∀ e d, (e, d) ∈ letters → c = d → Spelled c ['\\', e] := by
    rintro e d hmem rfl
    exact .piece (.letter hmem)
  unfold escape
  split_ifs with h₁ h₂ h₃ h₄ h₅ h₆ h₇ hcontrol
  · exact hletter '"' '"' (by decide) h₁
  · exact hletter '\\' '\\' (by decide) h₂
  · exact hletter 'b' '\x08' (by decide) h₃
  · exact hletter 'f' '\x0c' (by decide) h₄
  · exact hletter 'n' '\n' (by decide) h₅
  · exact hletter 'r' '\r' (by decide) h₆
  · exact hletter 't' '\t' (by decide) h₇
  · have hlt : c.toNat < 32 := hcontrol
    have hunit := Piece.Spelled.unit (isUnit_control hlt) (Or.inl (by omega))
    rw [Char.ofNat_toNat] at hunit
    exact .piece hunit
  · exact .piece (.plain h₁ h₂ (Char.not_lt.1 hcontrol))

theorem Quoted.spells_escapes (s : List Char) : Spells Spelled s (s.flatMap escape) := by
  induction s with
  | nil => exact .nil
  | cons c s ih => exact .cons (spelled_escape c) ih

theorem Text.spelled_half : Text.Spelled none ['\\', 'u', 'd', '8', '0', '0'] := by
  have hd : Quoted.IsHex 'd' 13 := ⟨by decide, Or.inl rfl⟩
  have h₈ : Quoted.IsHex '8' 8 := ⟨by decide, Or.inl rfl⟩
  have hzero : Quoted.IsHex '0' 0 := ⟨by decide, Or.inl rfl⟩
  have digits : Quoted.IsUnit 0xD800 ['d', '8', '0', '0'] := .digits hd h₈ hzero hzero
  have spells : Spells Quoted.Piece.Spelled [.half 0xD800] ['\\', 'u', 'd', '8', '0', '0'] :=
    .cons (Quoted.Piece.Spelled.half digits (by decide) (by decide)) .nil
  exact Text.spelled_of_pieces spells

theorem Token.spelled_text (t : Text) : Spelled (.string t) (Text.print t) := by
  cases t with
  | none => exact .string Text.spelled_half
  | some s => exact .string (.text (Quoted.spells_escapes s.toList))

theorem Token.spelled_number (n : Number) : Spelled (.number n) n.print := by
  cases n with
  | whole negative n => exact .number (.whole negative n)
  | scientific =>
    have digits : Number.IsDigits ['0'] := ⟨by simp, by simp⟩
    exact .number (.fraction false 0 (.digits digits))

theorem Laid.cons {t : Token} {ts : List Token} {cs rest : List Char} (spelled : t.Spelled cs)
    (laid : Laid ts rest) : Laid (t :: ts) (cs ++ rest) := by
  show Laid (t :: ts) ([] ++ (cs ++ rest))
  exact .token (by simp) spelled laid

namespace Value

mutual

theorem laid_value (v : Value) {ts : List Token} {cs : List Char} (laid : Laid ts cs) :
    Laid (tokens v ++ ts) (print v ++ cs) :=
  match v with
  | null => .cons .null laid
  | bool true => .cons .yes laid
  | bool false => .cons .no laid
  | number n => .cons (Token.spelled_number n) laid
  | string s => .cons (Token.spelled_text s) laid
  | array [] => by
    show Laid (.openArray :: .closeArray :: ts) (['['] ++ ([']'] ++ cs))
    exact .cons .openArray (.cons .closeArray laid)
  | array (v :: vs) => by
    rw [tokens, print, List.cons_append, List.cons_append, List.append_assoc, List.append_assoc]
    exact .cons .openArray (laid_value v (laid_items vs laid))
  | object [] => by
    show Laid (.openObject :: .closeObject :: ts) (['{'] ++ (['}'] ++ cs))
    exact .cons .openObject (.cons .closeObject laid)
  | object ((name, v) :: fs) => by
    rw [tokens, print]
    simp only [List.cons_append, List.append_assoc]
    exact .cons .openObject (.cons (Token.spelled_text name)
      (.cons .colon (laid_value v (laid_fields fs laid))))

theorem laid_items (vs : List Value) {ts : List Token} {cs : List Char} (laid : Laid ts cs) :
    Laid (itemTokens vs ++ ts) (printItems vs ++ cs) :=
  match vs with
  | [] => .cons .closeArray laid
  | v :: vs => by
    rw [itemTokens, printItems, List.cons_append, List.cons_append, List.append_assoc,
      List.append_assoc]
    exact .cons .comma (laid_value v (laid_items vs laid))

theorem laid_fields (fs : List (Text × Value)) {ts : List Token} {cs : List Char}
    (laid : Laid ts cs) : Laid (fieldTokens fs ++ ts) (printFields fs ++ cs) :=
  match fs with
  | [] => .cons .closeObject laid
  | (name, v) :: fs => by
    rw [fieldTokens, printFields]
    simp only [List.cons_append, List.append_assoc]
    exact .cons .comma (.cons (Token.spelled_text name)
      (.cons .colon (laid_value v (laid_fields fs laid))))

end

theorem laid_render (v : Value) : Laid v.tokens v.render.toList := by
  have hdone : Laid [] [] := .done (by simp)
  have hlaid := laid_value v hdone
  simpa [render] using hlaid

end Value

end Mvcc.Json
