import Mathlib.Tactic.SplitIfs
import Mvcc.Record.Layout

/-!
# The stored form, read backwards

A decoder takes back what an encoder wrote. It also takes nothing else: whenever it reads a value,
what it took from the front is what the encoder writes of that value. So the stored form of a version
is known from the version but for the bytes that nothing looks at.

* `Decoder.Faithful`: a decoder that reads nothing else, with a lemma for each decoder.
* `Layout.dropCheck_eq_ok_iff`: fields and their check.
* `Layout.decode_eq_ok_iff`: the byte strings that are read as a version.
* `Layout.Exact`, `exact_of_fits`: the result for every version.
-/

namespace Mvcc

/-! ## Words -/

namespace Bytes

theorem ofLittle_lt_limit (b : Bytes) : ofLittle b < limit b.length := by
  induction b with
  | nil => decide
  | cons x rest ih =>
    have hx : x.toNat < 256 := x.toNat_lt
    simp only [ofLittle, List.length_cons, limit]
    omega

theorem ofUInt64_ofLittle {b : Bytes} (h : b.length = 8) :
    ofUInt64 (UInt64.ofNat (ofLittle b)) = b := by
  have hlt : ofLittle b < 2 ^ 64 := by
    have hlimit := ofLittle_lt_limit b
    rwa [h] at hlimit
  rw [ofUInt64, UInt64.toNat_ofNat_of_lt' hlt, ← h]
  exact little_ofLittle b

theorem ofUInt32_ofLittle {b : Bytes} (h : b.length = 4) :
    ofUInt32 (UInt32.ofNat (ofLittle b)) = b := by
  have hlt : ofLittle b < 2 ^ 32 := by
    have hlimit := ofLittle_lt_limit b
    rwa [h] at hlimit
  rw [ofUInt32, UInt32.toNat_ofNat_of_lt' hlt, ← h]
  exact little_ofLittle b

end Bytes

/-! ## Decoders -/

namespace Decoder

variable {α β : Type}

/-- Whatever a decoder reads is a value with the property `fits`, and what it took is the value as
`encode` writes it. -/
def Faithful (d : Decoder α) (encode : α → Bytes) (fits : α → Prop) : Prop :=
  ∀ b a rest, StateT.run d b = some (a, rest) → fits a ∧ b = encode a ++ rest

theorem exists_of_run_bind {d : Decoder α} {f : α → Decoder β} {b rest : Bytes} {c : β}
    (h : StateT.run (d >>= f) b = some (c, rest)) :
    ∃ a b', StateT.run d b = some (a, b') ∧ StateT.run (f a) b' = some (c, rest) := by
  rw [run_bind] at h
  obtain ⟨⟨a, b'⟩, hd, hf⟩ := Option.bind_eq_some_iff.1 h
  exact ⟨a, b', hd, hf⟩

theorem eq_of_run_pure {a a' : α} {b rest : Bytes}
    (h : StateT.run (pure a : Decoder α) b = some (a', rest)) : a' = a ∧ rest = b := by
  cases h
  exact ⟨rfl, rfl⟩

theorem faithful_take (n : Nat) : (take n).Faithful id fun b => b.length = n := by
  intro b a rest h
  have htake : (if n ≤ b.length then some (b.take n, b.drop n) else none) = some (a, rest) := h
  split_ifs at htake with hle
  cases htake
  exact ⟨List.length_take_of_le hle, (List.take_append_drop n b).symm⟩

theorem faithful_word64 : word64.Faithful Bytes.ofUInt64 fun _ => True := by
  intro b v rest h
  obtain ⟨c, b₁, hc, hpure⟩ := exists_of_run_bind h
  obtain ⟨rfl, rfl⟩ := eq_of_run_pure hpure
  obtain ⟨hlen, hb⟩ := faithful_take 8 b c rest hc
  exact ⟨trivial, by rw [Bytes.ofUInt64_ofLittle hlen]; exact hb⟩

theorem faithful_word32 : word32.Faithful Bytes.ofUInt32 fun _ => True := by
  intro b v rest h
  obtain ⟨c, b₁, hc, hpure⟩ := exists_of_run_bind h
  obtain ⟨rfl, rfl⟩ := eq_of_run_pure hpure
  obtain ⟨hlen, hb⟩ := faithful_take 4 b c rest hc
  exact ⟨trivial, by rw [Bytes.ofUInt32_ofLittle hlen]; exact hb⟩

theorem faithful_int64 : int64.Faithful Bytes.ofInt64 fun _ => True := by
  intro b v rest h
  obtain ⟨w, b₁, hw, hpure⟩ := exists_of_run_bind h
  obtain ⟨rfl, rfl⟩ := eq_of_run_pure hpure
  obtain ⟨-, hb⟩ := faithful_word64 b w rest hw
  exact ⟨trivial, by rw [Bytes.ofInt64, UInt64.toUInt64_toInt64]; exact hb⟩

theorem faithful_counted : counted.Faithful Bytes.counted fun b => b.length < UInt64.size := by
  intro b a rest h
  obtain ⟨w, b₁, hw, hrest⟩ := exists_of_run_bind h
  obtain ⟨-, hb⟩ := faithful_word64 b w b₁ hw
  obtain ⟨hlen, hb₁⟩ := faithful_take w.toNat b₁ a rest hrest
  refine ⟨Nat.lt_of_le_of_lt (Nat.le_of_eq hlen) w.toNat_lt, ?_⟩
  rw [Bytes.counted, hlen, UInt64.ofNat_toNat, List.append_assoc, hb, hb₁]
  rfl

theorem faithful_text : text.Faithful (fun s => Bytes.counted (Bytes.ofText s))
    fun s => (Bytes.ofText s).length < UInt64.size := by
  intro b s rest h
  obtain ⟨c, b₁, hc, hrest⟩ := exists_of_run_bind h
  obtain ⟨hlen, hb⟩ := faithful_counted b c b₁ hc
  obtain ⟨s', hs, heq⟩ := Option.bind_eq_some_iff.1 hrest
  cases heq
  rw [Bytes.toText?_eq_some_iff.1 hs] at hlen hb
  exact ⟨hlen, hb⟩

theorem faithful_flag : flag.Faithful (fun f => [if f then 1 else 0]) fun _ => True := by
  intro b f rest h
  obtain ⟨c, b₁, hc, hrest⟩ := exists_of_run_bind h
  obtain ⟨-, hb⟩ := faithful_take 1 b c b₁ hc
  split at hrest
  · obtain ⟨rfl, rfl⟩ := eq_of_run_pure hrest
    exact ⟨trivial, hb⟩
  · obtain ⟨rfl, rfl⟩ := eq_of_run_pure hrest
    exact ⟨trivial, hb⟩
  · cases hrest

theorem Faithful.optional {d : Decoder α} {encode : α → Bytes} {fits : α → Prop}
    (hd : d.Faithful encode fits) :
    (Decoder.optional d).Faithful (Bytes.optional encode) fun o => ∀ a ∈ o, fits a := by
  intro b o rest h
  obtain ⟨f, b₁, hf, hrest⟩ := exists_of_run_bind h
  obtain ⟨-, rfl⟩ := faithful_flag b f b₁ hf
  cases f with
  | false =>
    obtain ⟨rfl, rfl⟩ := eq_of_run_pure hrest
    exact ⟨by simp, rfl⟩
  | true =>
    obtain ⟨a, b₂, ha, hpure⟩ := exists_of_run_bind hrest
    obtain ⟨rfl, rfl⟩ := eq_of_run_pure hpure
    obtain ⟨hfits, rfl⟩ := hd b₁ a rest ha
    refine ⟨fun a' ha' => ?_, rfl⟩
    cases ha'
    exact hfits

end Decoder

/-! ## Keys and versions -/

open Decoder (exists_of_run_bind eq_of_run_pure)

theorem KeyValue.faithful : decoder.Faithful encode Fits := by
  intro b k rest h
  obtain ⟨w, b₁, hw, hrest⟩ := exists_of_run_bind h
  obtain ⟨-, rfl⟩ := Decoder.faithful_word32 b w b₁ hw
  split at hrest
  · obtain ⟨n, b₂, hn, hpure⟩ := exists_of_run_bind hrest
    obtain ⟨rfl, rfl⟩ := eq_of_run_pure hpure
    obtain ⟨-, rfl⟩ := Decoder.faithful_int64 b₁ n rest hn
    exact ⟨trivial, (List.append_assoc ..).symm⟩
  · obtain ⟨s, b₂, hs, hpure⟩ := exists_of_run_bind hrest
    obtain ⟨rfl, rfl⟩ := eq_of_run_pure hpure
    obtain ⟨hfits, rfl⟩ := Decoder.faithful_text b₁ s rest hs
    exact ⟨hfits, (List.append_assoc ..).symm⟩
  · obtain ⟨c, b₂, hc, hpure⟩ := exists_of_run_bind hrest
    obtain ⟨rfl, rfl⟩ := eq_of_run_pure hpure
    obtain ⟨hfits, rfl⟩ := Decoder.faithful_counted b₁ c rest hc
    exact ⟨hfits, (List.append_assoc ..).symm⟩
  · cases hrest

theorem RecordKey.faithful : decoder.Faithful encode Fits := by
  intro b k rest h
  obtain ⟨table, b₁, htable, hrest₁⟩ := exists_of_run_bind h
  obtain ⟨key, b₂, hkey, hpure⟩ := exists_of_run_bind hrest₁
  obtain ⟨rfl, rfl⟩ := eq_of_run_pure hpure
  obtain ⟨hfits, rfl⟩ := Decoder.faithful_text b table b₁ htable
  obtain ⟨hfits', rfl⟩ := KeyValue.faithful b₁ key rest hkey
  exact ⟨⟨hfits, hfits'⟩, (List.append_assoc ..).symm⟩

theorem Version.faithful : decoder.Faithful encode Fits := by
  intro b v rest h
  obtain ⟨key, b₁, hkey, hrest₁⟩ := exists_of_run_bind h
  obtain ⟨number, b₂, hnumber, hrest₂⟩ := exists_of_run_bind hrest₁
  obtain ⟨payload, b₃, hpayload, hrest₃⟩ := exists_of_run_bind hrest₂
  obtain ⟨beginTs, b₄, hbegin, hrest₄⟩ := exists_of_run_bind hrest₃
  obtain ⟨endTs, b₅, hend, hpure⟩ := exists_of_run_bind hrest₄
  obtain ⟨rfl, rfl⟩ := eq_of_run_pure hpure
  obtain ⟨hkeyFits, rfl⟩ := RecordKey.faithful b key b₁ hkey
  obtain ⟨-, rfl⟩ := Decoder.faithful_word64 b₁ number b₂ hnumber
  obtain ⟨hpayloadFits, rfl⟩ := Decoder.faithful_counted.optional b₂ payload b₃ hpayload
  obtain ⟨-, rfl⟩ := Decoder.faithful_word64 b₃ beginTs b₄ hbegin
  obtain ⟨-, rfl⟩ := Decoder.faithful_word64.optional b₄ endTs rest hend
  exact ⟨⟨hkeyFits, hpayloadFits⟩, by simp only [encode, List.append_assoc]⟩

/-! ## The stored form -/

namespace Layout

theorem dropCheck_eq_ok_iff {b fields : Bytes} : dropCheck b = .ok fields ↔ b = withCheck fields := by
  constructor
  · intro h
    unfold dropCheck at h
    simp only at h
    split_ifs at h with hshort hcheck
    cases h
    rw [withCheck, hcheck, List.take_append_drop]
  · rintro rfl
    exact dropCheck_withCheck fields

theorem decode_eq (b : Bytes) :
    decode b = match dropCheck b with
      | .error e => .error e
      | .ok fields =>
        match StateT.run Version.decoder fields with
        | none => .error .fields
        | some (v, _) => .ok v := by
  rw [decode]
  cases dropCheck b with
  | error e => rfl
  | ok fields =>
    simp only [bind, Except.bind]
    cases StateT.run Version.decoder fields <;> rfl

/-- A byte string is read as a version if it is the fields of the version, any bytes after them, and
the check of both. -/
theorem decode_eq_ok_iff {b : Bytes} {v : Version} :
    decode b = .ok v ↔ v.Fits ∧ ∃ rest, b = withCheck (v.encode ++ rest) := by
  rw [decode_eq]
  constructor
  · intro h
    cases hfields : dropCheck b with
    | error e =>
      rw [hfields] at h
      cases h
    | ok fields =>
      rw [hfields] at h
      simp only at h
      rcases hrun : StateT.run Version.decoder fields with _ | ⟨w, rest⟩
      all_goals
        rw [hrun] at h
        cases h
      obtain ⟨hfits, rfl⟩ := Version.faithful fields v rest hrun
      exact ⟨hfits, rest, dropCheck_eq_ok_iff.1 hfields⟩
  · rintro ⟨hfits, rest, rfl⟩
    rw [dropCheck_withCheck]
    simp only
    rw [Version.run_decoder v rest hfits]

/-- The stored form of a version and the byte strings that are read as it. -/
structure Exact (v : Version) : Prop where
  accepts : ∀ b, decode b = .ok v ↔ ∃ rest, b = withCheck (v.encode ++ rest)
  decode_encode : decode (encode v) = .ok v
  distinct : ∀ u : Version, u.Fits → encode u = encode v → u = v

/-- A version is read from its fields with their check and from nothing else, so that it is told from
every other version. -/
theorem exact_of_fits (v : Version) (fits : v.Fits) : Exact v := by
  refine ⟨fun b => decode_eq_ok_iff.trans (and_iff_right fits), Layout.decode_encode v fits, ?_⟩
  intro u hu heq
  have hdecode := Layout.decode_encode u hu
  rw [heq, Layout.decode_encode v fits] at hdecode
  exact (Except.ok.inj hdecode).symm

/-- A version with text outside ASCII, and a byte after its fields that is not looked at. -/
theorem exact_accented :
    let v : Version :=
      { key := ⟨"tä", .text "é€"⟩, number := 3, payload := some [0, 255], beginTs := 4, endTs := some 9 }
    v.Fits ∧ Exact v ∧ encode v ≠ withCheck (v.encode ++ [7]) ∧
      decode (withCheck (v.encode ++ [7])) = .ok v := by
  intro v
  have htext : (Bytes.ofText "é€").length < UInt64.size := by decide +kernel
  have hfits : v.Fits := by
    refine ⟨⟨by decide +kernel, htext⟩, fun p hp => ?_⟩
    cases hp
    decide
  have hexact := exact_of_fits v hfits
  exact ⟨hfits, hexact, by decide +kernel, (hexact.accepts _).2 ⟨[7], rfl⟩⟩

end Layout

end Mvcc
