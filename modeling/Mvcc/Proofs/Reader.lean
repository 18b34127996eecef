import Mathlib.Data.List.Induction
import Mathlib.Data.List.TakeWhile
import Mvcc.Proofs.Grammar

/-!
# What the reader takes

The reader takes nothing but what the grammar allows. Each part of it takes something from the front
of a text, and what it took spells what it made of it. A reading knows at each moment which tokens
it took; a token that it takes is one more of them, and when the value is complete they are the
tokens of the value.

* `Quoted.spells_of_scan`, `Number.exists_of_scan?`, `Token.exists_of_scan?`: what is taken for a
  part is a way to write it.
* `Token.laid_of_all?`: texts in which tokens are found lay these tokens out.
* `Reading.taken`, `Reading.taken_step`, `Reading.taken_run`: the tokens that a reading took.
* `Value.ofText?_eq_some_iff`: the texts that are read as a value are those that lay it out.
-/

namespace Mvcc.Json

/-! ## Texts between quotes -/

namespace Quoted

theorem isHex_of_hexValue? {d : Char} {n : Nat} (h : Bytes.hexValue? d = some n) : IsHex d n := by
  rw [← Char.ofNat_toNat d]
  unfold Bytes.hexValue? at h
  split_ifs at h with hdigit hlower hupper
  all_goals cases h
  · have hlow : 48 ≤ d.toNat := hdigit.1
    have hhigh : d.toNat ≤ 57 := hdigit.2
    generalize d.toNat = m at hlow hhigh
    interval_cases m <;> exact ⟨by decide, Or.inl rfl⟩
  · have hlow : 97 ≤ d.toNat := hlower.1
    have hhigh : d.toNat ≤ 102 := hlower.2
    generalize d.toNat = m at hlow hhigh
    interval_cases m <;> exact ⟨by decide, Or.inl rfl⟩
  · have hlow : 65 ≤ d.toNat := hupper.1
    have hhigh : d.toNat ≤ 70 := hupper.2
    generalize d.toNat = m at hlow hhigh
    interval_cases m <;> exact ⟨by decide, Or.inr rfl⟩

theorem isUnit_of_unit? {a b c d : Char} {n : Nat} (h : unit? a b c d = some n) :
    IsUnit n [a, b, c, d] := by
  simp only [unit?, Option.bind_eq_bind, Option.bind_eq_some_iff] at h
  obtain ⟨w, hw, x, hx, y, hy, z, hz, hn⟩ := h
  cases hn
  exact .digits (isHex_of_hexValue? hw) (isHex_of_hexValue? hx) (isHex_of_hexValue? hy)
    (isHex_of_hexValue? hz)

theorem spelled_ofUnit {n : Nat} {cs : List Char} (digits : IsUnit n cs) :
    (Piece.ofUnit n).Spelled ('\\' :: 'u' :: cs) := by
  unfold Piece.ofUnit
  split_ifs with hhalf
  · exact .half digits hhalf.1 hhalf.2
  · exact .unit digits (by omega)

theorem mem_letters_of_short? {e c : Char} (h : short? e = some c) : (e, c) ∈ letters := by
  unfold short? at h
  split at h <;> cases h <;> decide

theorem spells_of_scan {found ps : List Piece} {cs rest : List Char}
    (h : scan found cs = some (ps, rest)) :
    ∃ qs front, ps = found.reverse ++ qs ∧ cs = front ++ '"' :: rest ∧
      Spells Piece.Spelled qs front := by
  have next : ∀ {found : List Piece} {p : Piece} {cs cs' : List Char}, p.Spelled cs →
      (∃ qs front, ps = (p :: found).reverse ++ qs ∧ cs' = front ++ '"' :: rest ∧
        Spells Piece.Spelled qs front) →
      ∃ qs front, ps = found.reverse ++ qs ∧ cs ++ cs' = front ++ '"' :: rest ∧
        Spells Piece.Spelled qs front := by
    rintro found p cs _ head ⟨qs, front, rfl, rfl, tail⟩
    exact ⟨p :: qs, cs ++ front, by simp, by simp, .cons head tail⟩
  fun_induction scan found cs with
  | case1 | case3 | case5 | case7 => contradiction
  | case2 =>
    cases h
    exact ⟨[], [], by simp, rfl, .nil⟩
  | case4 found a b c d cs n hunit ih => exact next (spelled_ofUnit (isUnit_of_unit? hunit)) (ih h)
  | case6 found e cs hu c hshort ih => exact next (.letter (mem_letters_of_short? hshort)) (ih h)
  | case8 found c cs hquote _ _ hplain ih =>
    obtain ⟨hbackslash, hcontrol⟩ := not_or.1 hplain
    exact next (.plain hquote hbackslash (Char.not_lt.1 hcontrol)) (ih h)

end Quoted

/-! ## Numbers -/

namespace Number

variable {cs rest : List Char} {b : Bool}

theorem eq_append_of_digits? {ds : List Char} (h : digits? cs = some (ds, rest)) :
    cs = ds ++ rest ∧ IsDigits ds := by
  unfold digits? at h
  split at h
  · contradiction
  · next d ds' htake =>
    cases h
    have hsplit := List.takeWhile_append_dropWhile (p := Char.isDigit) (l := cs)
    rw [htake] at hsplit
    refine ⟨hsplit.symm, List.cons_ne_nil _ _, fun c hc => ?_⟩
    rw [← htake] at hc
    exact List.mem_takeWhile_imp hc

theorem digitChar_of_isDigit {d : Char} (h : d.isDigit = true) :
    d.toNat - '0'.toNat < 10 ∧ (d.toNat - '0'.toNat).digitChar = d := by
  have hbounds : 48 ≤ d.val ∧ d.val ≤ 57 := by simpa [Char.isDigit] using h
  have hlow : 48 ≤ d.toNat := hbounds.1
  have hhigh : d.toNat ≤ 57 := hbounds.2
  rw [← Char.ofNat_toNat d]
  generalize d.toNat = m at hlow hhigh
  interval_cases m <;> decide

theorem toDigits_ofDigitChars {ds : List Char} (h : IsDigits ds)
    (zero : ¬ (ds.head? = some '0' ∧ ds ≠ ['0'])) :
    Nat.toDigits 10 (Nat.ofDigitChars 10 ds 0) = ds := by
  -- from the right: the last digit is what remains of the number, the others are its quotient
  induction ds using List.reverseRecOn with
  | nil => exact absurd rfl h.1
  | append_singleton ds d ih =>
    obtain ⟨hlt, hchar⟩ := digitChar_of_isDigit (h.2 d (by simp))
    rw [Nat.ofDigitChars_append, Nat.ofDigitChars_cons, Nat.ofDigitChars_nil]
    rcases List.eq_nil_or_concat' ds with rfl | ⟨ds', d', hds⟩
    · rw [Nat.ofDigitChars_nil, Nat.mul_zero, Nat.zero_add, Nat.toDigits_of_lt_base hlt, hchar]
      rfl
    · have hne : ds ≠ [] := by simp [hds]
      have hhead : ds.head? ≠ some '0' := by
        intro hhead
        refine zero ⟨by rwa [List.head?_append_of_ne_nil _ hne], fun hone => hne ?_⟩
        exact (List.append_eq_singleton_iff.1 hone).elim And.left fun h => absurd h.2 (by simp)
      have hdigits : IsDigits ds := ⟨hne, fun c hc => h.2 c (by simp [hc])⟩
      have hvalue := ih hdigits fun hzero => hhead hzero.1
      have hpos : 0 < Nat.ofDigitChars 10 ds 0 := by
        refine Nat.pos_of_ne_zero fun hzero => hhead ?_
        rw [hzero] at hvalue
        rw [← hvalue]
        rfl
      rw [Nat.toDigits_of_base_le (by decide) (by omega), Nat.mul_add_div (by decide),
        Nat.div_eq_of_lt hlt, Nat.add_zero, hvalue, Nat.mul_add_mod, Nat.mod_eq_of_lt hlt, hchar]

theorem exists_of_skipFraction? (h : skipFraction? cs = some (b, rest)) :
    (b = false ∧ cs = rest) ∨ (b = true ∧ ∃ fs, IsFraction fs ∧ cs = fs ++ rest) := by
  unfold skipFraction? at h
  split at h
  · next cs =>
    obtain ⟨⟨ds, r⟩, hdigits, hr⟩ := Option.map_eq_some_iff.1 h
    cases hr
    obtain ⟨rfl, hds⟩ := eq_append_of_digits? hdigits
    exact Or.inr ⟨rfl, _, .digits hds, rfl⟩
  · cases h
    exact Or.inl ⟨rfl, rfl⟩

theorem exists_sign (cs : List Char) :
    ∃ sign, (sign = [] ∨ sign = ['+'] ∨ sign = ['-']) ∧ cs = sign ++ skipSign cs := by
  unfold skipSign
  split
  · exact ⟨['+'], by simp, rfl⟩
  · exact ⟨['-'], by simp, rfl⟩
  · exact ⟨[], by simp, rfl⟩

theorem exists_of_skipExponent? (h : skipExponent? cs = some (b, rest)) :
    (b = false ∧ cs = rest) ∨ (b = true ∧ ∃ es, IsExponent es ∧ cs = es ++ rest) := by
  have marked : ∀ {e : Char} {cs : List Char}, e = 'e' ∨ e = 'E' →
      (digits? (skipSign cs)).map (fun p => (true, p.2)) = some (b, rest) →
      b = true ∧ ∃ es, IsExponent es ∧ e :: cs = es ++ rest := by
    intro e cs mark hmap
    obtain ⟨⟨ds, r⟩, hdigits, hr⟩ := Option.map_eq_some_iff.1 hmap
    cases hr
    obtain ⟨heq, hds⟩ := eq_append_of_digits? hdigits
    obtain ⟨sign, hsign, hcs⟩ := exists_sign cs
    refine ⟨rfl, _, .digits mark hsign hds, ?_⟩
    rw [hcs, heq]
    simp
  unfold skipExponent? at h
  split at h
  · exact Or.inr (marked (Or.inl rfl) h)
  · exact Or.inr (marked (Or.inr rfl) h)
  · cases h
    exact Or.inl ⟨rfl, rfl⟩

theorem exists_of_unsigned? {negative : Bool} {n : Number}
    (h : unsigned? negative cs = some (n, rest)) :
    ∃ m tail, cs = Nat.toDigits 10 m ++ (tail ++ rest) ∧
      n.Spelled (integer negative m ++ tail) := by
  simp only [unsigned?, Option.bind_eq_bind, Option.bind_eq_some_iff] at h
  obtain ⟨⟨ds, r₁⟩, hdigits, h⟩ := h
  obtain ⟨rfl, hds⟩ := eq_append_of_digits? hdigits
  simp only at h
  split_ifs at h with hzero
  simp only [Option.bind_eq_some_iff] at h
  obtain ⟨⟨fraction, r₂⟩, hfraction, ⟨exponent, r₃⟩, hexponent, h⟩ := h
  refine ⟨Nat.ofDigitChars 10 ds 0, ?_⟩
  rw [toDigits_ofDigitChars hds hzero]
  rcases exists_of_skipFraction? hfraction with ⟨rfl, rfl⟩ | ⟨rfl, fs, hfs, rfl⟩ <;>
    rcases exists_of_skipExponent? hexponent with ⟨rfl, rfl⟩ | ⟨rfl, es, hes, rfl⟩ <;> cases h
  · exact ⟨[], rfl, by simpa using Spelled.whole negative _⟩
  · exact ⟨es, rfl, .exponent negative _ hes⟩
  · exact ⟨fs, rfl, .fraction negative _ hfs⟩
  · exact ⟨fs ++ es, by simp, .both negative _ hfs hes⟩

theorem exists_of_scan? {n : Number} (h : scan? cs = some (n, rest)) :
    ∃ front, cs = front ++ rest ∧ n.Spelled front := by
  unfold scan? at h
  split at h
  · obtain ⟨m, tail, rfl, hspelled⟩ := exists_of_unsigned? h
    exact ⟨_, by simp [integer], hspelled⟩
  · obtain ⟨m, tail, rfl, hspelled⟩ := exists_of_unsigned? h
    exact ⟨_, by simp [integer], hspelled⟩

end Number

/-! ## Tokens -/

theorem Laid.blank {b : Char} {ts : List Token} {cs : List Char} (blank : isBlank b = true)
    (laid : Laid ts cs) : Laid ts (b :: cs) := by
  cases laid with
  | @done bs blanks => exact .done (by simpa [blank] using blanks)
  | @token bs cs rest t ts blanks spelled laid =>
    have hlaid : Laid (t :: ts) ((b :: bs) ++ (cs ++ rest)) :=
      .token (by simpa [blank] using blanks) spelled laid
    exact hlaid

namespace Token

theorem exists_of_scan? {t : Token} {cs rest : List Char} (h : scan? cs = some (t, rest)) :
    ∃ front, cs = front ++ rest ∧ t.Spelled front := by
  unfold scan? at h
  split at h
  case h_10 cs =>
    obtain ⟨⟨ps, r⟩, hscan, heq⟩ := Option.map_eq_some_iff.1 h
    cases heq
    obtain ⟨qs, front, rfl, rfl, hspells⟩ := Quoted.spells_of_scan hscan
    exact ⟨_, by simp, .string (Text.spelled_of_pieces hspells)⟩
  case h_11 =>
    obtain ⟨⟨n, r⟩, hscan, heq⟩ := Option.map_eq_some_iff.1 h
    cases heq
    obtain ⟨front, rfl, hspelled⟩ := Number.exists_of_scan? hscan
    exact ⟨front, rfl, .number hspelled⟩
  all_goals cases h
  · exact ⟨_, rfl, .openArray⟩
  · exact ⟨_, rfl, .closeArray⟩
  · exact ⟨_, rfl, .openObject⟩
  · exact ⟨_, rfl, .closeObject⟩
  · exact ⟨_, rfl, .colon⟩
  · exact ⟨_, rfl, .comma⟩
  · exact ⟨_, rfl, .null⟩
  · exact ⟨_, rfl, .yes⟩
  · exact ⟨_, rfl, .no⟩

theorem laid_of_allFrom? {found ts : List Token} {cs : List Char}
    (h : allFrom? found cs = some ts) : ∃ us, ts = found.reverse ++ us ∧ Laid us cs := by
  fun_induction allFrom? found cs with
  | case1 found =>
    cases h
    exact ⟨[], by simp, .done (by simp)⟩
  | case2 found c cs blank ih =>
    obtain ⟨us, rfl, hlaid⟩ := ih h
    exact ⟨us, rfl, hlaid.blank blank⟩
  | case3 => contradiction
  | case4 found c cs blank t after hscan _ ih =>
    obtain ⟨us, rfl, hlaid⟩ := ih h
    obtain ⟨front, hfront, hspelled⟩ := exists_of_scan? hscan
    refine ⟨t :: us, by simp, ?_⟩
    rw [hfront]
    exact .cons hspelled hlaid

theorem laid_of_all? {ts : List Token} {cs : List Char} (h : all? cs = some ts) : Laid ts cs := by
  obtain ⟨us, rfl, hlaid⟩ := laid_of_allFrom? h
  exact hlaid

end Token

/-! ## Values -/

namespace Value

/-- The tokens of items, each with a comma behind it. -/
def commaItems (vs : List Value) : List Token := vs.flatMap fun v => tokens v ++ [.comma]

/-- The tokens of a field, its name first. -/
def entryTokens (f : Text × Value) : List Token := .string f.1 :: .colon :: tokens f.2

/-- The tokens of fields, each with a comma behind it. -/
def commaFields (fs : List (Text × Value)) : List Token :=
  fs.flatMap fun f => entryTokens f ++ [.comma]

theorem tokens_append_itemTokens (w v : Value) (vs : List Value) :
    tokens w ++ itemTokens (vs ++ [v]) = commaItems (w :: vs) ++ (tokens v ++ [.closeArray]) := by
  induction vs generalizing w with
  | nil => simp [itemTokens, commaItems]
  | cons v' vs ih =>
    rw [List.cons_append, itemTokens, ih]
    simp [commaItems]

theorem tokens_array (vs : List Value) (v : Value) :
    tokens (.array (vs ++ [v])) =
      .openArray :: (commaItems vs ++ (tokens v ++ [.closeArray])) := by
  cases vs with
  | nil => simp [tokens, itemTokens, commaItems]
  | cons w vs => rw [List.cons_append, tokens, tokens_append_itemTokens]

theorem entryTokens_append_fieldTokens (w f : Text × Value) (fs : List (Text × Value)) :
    entryTokens w ++ fieldTokens (fs ++ [f]) =
      commaFields (w :: fs) ++ (entryTokens f ++ [.closeObject]) := by
  induction fs generalizing w with
  | nil => simp [fieldTokens, commaFields, entryTokens]
  | cons f' fs ih =>
    have htokens : fieldTokens (f' :: (fs ++ [f])) =
        .comma :: (entryTokens f' ++ fieldTokens (fs ++ [f])) := rfl
    rw [List.cons_append, htokens, ih]
    simp [commaFields]

theorem tokens_object (fs : List (Text × Value)) (f : Text × Value) :
    tokens (.object (fs ++ [f])) =
      .openObject :: (commaFields fs ++ (entryTokens f ++ [.closeObject])) := by
  cases fs with
  | nil => simp [tokens, fieldTokens, commaFields, entryTokens]
  | cons w fs =>
    have htokens : tokens (.object (w :: (fs ++ [f]))) =
        .openObject :: (entryTokens w ++ fieldTokens (fs ++ [f])) := rfl
    rw [List.cons_append, htokens, entryTokens_append_fieldTokens]

end Value

open Value (commaItems commaFields entryTokens tokens)

/-- The tokens that opened a frame and filled it so far. -/
def Frame.taken : Frame → List Token
  | array items => .openArray :: commaItems items.reverse
  | object fields name => .openObject :: (commaFields fields.reverse ++ [.string name, .colon])

namespace Reading

/-- The tokens of all that is open. -/
def before (around : List Frame) : List Token := around.reverse.flatMap Frame.taken

/-- The tokens that a reading took. Where a comma may come next something stands before it. -/
def taken : Reading → List Token
  | value around => before around
  | firstItem around => before around ++ [.openArray]
  | firstName around => before around ++ [.openObject]
  | name fields around => before around ++ .openObject :: commaFields fields.reverse
  | colon fields s around =>
    before around ++ .openObject :: (commaFields fields.reverse ++ [.string s])
  | afterItem [] around => before around
  | afterItem (v :: items) around =>
    before around ++ .openArray :: (commaItems items.reverse ++ tokens v)
  | afterField [] around => before around
  | afterField (f :: fields) around =>
    before around ++ .openObject :: (commaFields fields.reverse ++ entryTokens f)
  | complete v => tokens v

/-- Something stands before a place where a comma may come next. -/
def Filled : Reading → Prop
  | afterItem items _ => items ≠ []
  | afterField fields _ => fields ≠ []
  | _ => True

variable {r r' : Reading} {t : Token} {v : Value} {around : List Frame}

theorem before_cons (f : Frame) (around : List Frame) :
    before (f :: around) = before around ++ f.taken := by
  simp [before]

theorem taken_finish (v : Value) (around : List Frame) :
    (finish v around).Filled ∧ (finish v around).taken = before around ++ tokens v := by
  rcases around with _ | ⟨_ | _, around⟩
  · exact ⟨trivial, rfl⟩
  · exact ⟨List.cons_ne_nil _ _, by simp [finish, taken, before_cons, Frame.taken]⟩
  · exact ⟨List.cons_ne_nil _ _, by simp [finish, taken, before_cons, Frame.taken, entryTokens]⟩

theorem taken_start (h : start around t = some r') :
    r'.Filled ∧ r'.taken = before around ++ [t] := by
  cases t <;> cases h
  · exact ⟨trivial, rfl⟩
  · exact ⟨trivial, rfl⟩
  all_goals exact taken_finish _ around

theorem taken_step (filled : r.Filled) (h : r.step t = some r') :
    r'.Filled ∧ r'.taken = r.taken ++ [t] := by
  cases r with
  | value around => exact taken_start h
  | firstItem around =>
    by_cases hclose : t = .closeArray
    · subst hclose
      cases h
      obtain ⟨hfilled, htaken⟩ := taken_finish (.array []) around
      refine ⟨hfilled, ?_⟩
      rw [htaken]
      simp [taken, tokens]
    · have hstart : start (.array [] :: around) t = some r' := by
        cases t <;> first | exact h | exact absurd rfl hclose
      obtain ⟨hfilled, htaken⟩ := taken_start hstart
      refine ⟨hfilled, ?_⟩
      rw [htaken, before_cons]
      simp [taken, Frame.taken, commaItems]
  | firstName around =>
    cases t <;> cases h
    · obtain ⟨hfilled, htaken⟩ := taken_finish (.object []) around
      refine ⟨hfilled, ?_⟩
      rw [htaken]
      simp [taken, tokens]
    · exact ⟨trivial, by simp [taken, commaFields]⟩
  | name fields around =>
    cases t <;> cases h
    exact ⟨trivial, by simp [taken]⟩
  | colon fields s around =>
    cases t <;> cases h
    exact ⟨trivial, by simp [taken, before_cons, Frame.taken]⟩
  | afterItem items around =>
    obtain ⟨v, items, rfl⟩ := List.exists_cons_of_ne_nil filled
    cases t <;> cases h
    · obtain ⟨hfilled, htaken⟩ := taken_finish (.array (v :: items).reverse) around
      refine ⟨hfilled, ?_⟩
      rw [htaken, List.reverse_cons, Value.tokens_array]
      simp [taken]
    · exact ⟨trivial, by simp [taken, before_cons, Frame.taken, commaItems]⟩
  | afterField fields around =>
    obtain ⟨f, fields, rfl⟩ := List.exists_cons_of_ne_nil filled
    cases t <;> cases h
    · obtain ⟨hfilled, htaken⟩ := taken_finish (.object (f :: fields).reverse) around
      refine ⟨hfilled, ?_⟩
      rw [htaken, List.reverse_cons, Value.tokens_object]
      simp [taken]
    · exact ⟨trivial, by simp [taken, commaFields]⟩
  | complete v => cases t <;> cases h

theorem taken_run {ts : List Token} (filled : r.Filled)
    (h : ts.foldlM step r = some r') : r'.taken = r.taken ++ ts := by
  induction ts generalizing r with
  | nil =>
    cases h
    simp
  | cons t ts ih =>
    rw [List.foldlM_cons, Option.bind_eq_bind, Option.bind_eq_some_iff] at h
    obtain ⟨next, hstep, hrun⟩ := h
    obtain ⟨hfilled, htaken⟩ := taken_step filled hstep
    rw [ih hfilled hrun, htaken]
    simp

end Reading

namespace Value

theorem tokens_of_ofTokens? {ts : List Token} {v : Value} (h : ofTokens? ts = some v) :
    ts = v.tokens := by
  unfold ofTokens? at h
  split at h
  · next v' hrun =>
    cases h
    have hfilled : (Reading.value []).Filled := trivial
    exact (Reading.taken_run hfilled hrun).symm
  · contradiction

/-- The texts that are read as a value are those that lay it out. -/
theorem ofText?_eq_some_iff {v : Value} {document : String} :
    ofText? document = some v ↔ Laid v.tokens document.toList := by
  refine ⟨fun h => ?_, ofText?_of_laid⟩
  rw [ofText?, Option.bind_eq_some_iff] at h
  obtain ⟨ts, hall, hread⟩ := h
  rw [← tokens_of_ofTokens? hread]
  exact Token.laid_of_all? hall

end Value

end Mvcc.Json
