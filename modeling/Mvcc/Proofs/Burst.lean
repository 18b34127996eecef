import Mathlib.Tactic.ByContra
import Mvcc.Proofs.Codec
import Mvcc.Store.Reading

/-!
# Damage the check finds

A shift of the register can be undone, so what stood in it before a byte string is known from what
stands in it afterwards. Up to four bytes fit into it at once, so different ones in the same place
leave different registers. Fields that are followed by their check all leave the same register,
`Crc32.residue`: the check is written least significant byte first, as the register takes it.

So a stored form is refused when some of four neighbouring bytes of it were changed.

* `Bytes.Burst`: byte strings that differ within a stretch only; `exists_split`, `burst_append`: what
  is around it.
* `Crc32.register_injective`, `Crc32.register_eq_shifts`: the register before and after.
* `Crc32.register_ne_of_burst`, `Crc32.register_withCheck`: why damage is found.
* `Layout.burst_detected`: the result for every version.
-/

namespace Mvcc

/-! ## Bursts -/

namespace Bytes

/-- Byte strings of one length that differ, but only within a stretch of `n` places. -/
structure Burst (n : Nat) (a b : Bytes) : Prop where
  length_eq : a.length = b.length
  ne : a ≠ b
  within : ∃ i, ∀ j : Nat, a[j]? ≠ b[j]? → i ≤ j ∧ j < i + n

theorem Burst.exists_split {n : Nat} {a b : Bytes} (h : Burst n a b) :
    ∃ p x y s, a = p ++ (x ++ s) ∧ b = p ++ (y ++ s) ∧
      x.length = y.length ∧ x.length ≤ n ∧ x ≠ y := by
  obtain ⟨hlen, hne, i, hwithin⟩ := h
  have hfront : a.take i = b.take i := by
    refine List.ext_getElem? fun j => ?_
    rw [List.getElem?_take, List.getElem?_take]
    split_ifs with hj
    · by_contra hdiffer
      have hi := (hwithin j hdiffer).1
      omega
    · rfl
  have hback : (a.drop i).drop n = (b.drop i).drop n := by
    rw [List.drop_drop, List.drop_drop]
    refine List.ext_getElem? fun j => ?_
    rw [List.getElem?_drop, List.getElem?_drop]
    by_contra hdiffer
    have hi := (hwithin _ hdiffer).2
    omega
  have ha : a = a.take i ++ ((a.drop i).take n ++ (a.drop i).drop n) := by
    rw [List.take_append_drop, List.take_append_drop]
  have hb : b = a.take i ++ ((b.drop i).take n ++ (a.drop i).drop n) := by
    rw [hfront, hback, List.take_append_drop, List.take_append_drop]
  refine ⟨_, _, _, _, ha, hb, by simp [hlen], List.length_take_le _ _, fun hmiddle => hne ?_⟩
  rw [ha, hmiddle]
  exact hb.symm

theorem burst_append {n : Nat} {x y : Bytes} (hlen : x.length = y.length) (hle : x.length ≤ n)
    (hne : x ≠ y) (p s : Bytes) : Burst n (p ++ (x ++ s)) (p ++ (y ++ s)) := by
  refine ⟨by simp [hlen], fun heq => hne ?_, p.length, fun j hdiffer => ?_⟩
  · exact (List.append_inj (List.append_cancel_left heq) hlen).1
  by_contra hj
  refine hdiffer ?_
  rcases Nat.lt_or_ge j p.length with hp | hp
  · rw [List.getElem?_append_left hp, List.getElem?_append_left hp]
  · rw [List.getElem?_append_right hp, List.getElem?_append_right hp,
      List.getElem?_append_right (by omega), List.getElem?_append_right (by omega), hlen]

theorem limit_le_limit {m n : Nat} (h : m ≤ n) : limit m ≤ limit n := by
  induction h with
  | refl => exact Nat.le_refl _
  | step _ ih =>
    rw [limit]
    omega

theorem ofLittle_lt {n : Nat} {b : Bytes} (h : b.length ≤ n) : ofLittle b < limit n :=
  Nat.lt_of_lt_of_le (ofLittle_lt_limit b) (limit_le_limit h)

end Bytes

/-! ## The register -/

namespace Crc32

open Bytes (ofLittle)

/-- The bit that leaves the register shows in its highest bit, since the generator has that bit. -/
theorem getLsbD_shift_last (r : BitVec 32) : (shift r).getLsbD 31 = r.getLsbD 0 := by
  have hhigh : (r >>> 1).getLsbD 31 = false := by
    rw [BitVec.getLsbD_ushiftRight]
    exact BitVec.getLsbD_of_ge r 32 (Nat.le_refl _)
  rw [shift]
  split_ifs with hlow
  · rw [BitVec.getLsbD_xor, hhigh, hlow]
    decide
  · rw [hhigh]
    exact (Bool.eq_false_iff.2 hlow).symm

theorem eq_zero_of_shift {r : BitVec 32} (h : shift r = 0#32) : r = 0#32 := by
  have hlow : r.getLsbD 0 = false := by
    rw [← getLsbD_shift_last, h]
    rfl
  rw [shift, if_neg (Bool.eq_false_iff.1 hlow)] at h
  refine BitVec.eq_of_getLsbD_eq fun i hi => ?_
  rw [BitVec.getLsbD_zero]
  cases i with
  | zero => exact hlow
  | succ i =>
    have hbit := congrArg (fun w => BitVec.getLsbD w i) h
    simpa only [BitVec.getLsbD_ushiftRight, BitVec.getLsbD_zero, Nat.add_comm 1 i] using hbit

theorem shift_injective : Function.Injective shift := by
  intro a b h
  have hdiff : shift (a ^^^ b) = 0#32 := by rw [shift_xor, h, BitVec.xor_self]
  exact BitVec.xor_eq_zero_iff.1 (eq_zero_of_shift hdiff)

theorem shifts_injective (n : Nat) : Function.Injective (shifts n) := by
  induction n with
  | zero => exact fun _ _ h => h
  | succ n ih => exact ih.comp shift_injective

theorem shifts_add (m n : Nat) (r : BitVec 32) : shifts n (shifts m r) = shifts (m + n) r := by
  induction m generalizing r with
  | zero => rw [Nat.zero_add]; rfl
  | succ m ih => rw [Nat.succ_add]; exact ih (shift r)

theorem feed_injective (b : UInt8) : Function.Injective fun r => feed r b := by
  intro r r' h
  exact (BitVec.xor_left_inj _).1 (shifts_injective 8 h)

theorem register_injective (s : Bytes) : Function.Injective fun r => register r s := by
  induction s with
  | nil => exact fun _ _ h => h
  | cons b s ih => exact ih.comp (feed_injective b)

/-! ### Up to four bytes

A byte that is followed by others may be put into the register together with them. -/

theorem shift_ofNat_double (m : Nat) (h : 2 * m < UInt32.size) :
    shift (BitVec.ofNat 32 (2 * m)) = BitVec.ofNat 32 m := by
  have hlow : (BitVec.ofNat 32 (2 * m)).getLsbD 0 = false := by
    rw [BitVec.getLsbD_ofNat, Nat.testBit_zero]
    simp
  have hm : m < UInt32.size := by omega
  rw [shift, if_neg (Bool.eq_false_iff.1 hlow)]
  refine BitVec.eq_of_toNat_eq ?_
  rw [BitVec.toNat_ushiftRight, BitVec.toNat_ofNat, BitVec.toNat_ofNat, Nat.mod_eq_of_lt h,
    Nat.mod_eq_of_lt hm, Nat.shiftRight_eq_div_pow]
  omega

theorem shifts_ofNat_byte (m : Nat) (h : 256 * m < UInt32.size) :
    shifts 8 (BitVec.ofNat 32 (256 * m)) = BitVec.ofNat 32 m := by
  have hdouble : 256 * m = 2 * (2 * (2 * (2 * (2 * (2 * (2 * (2 * m))))))) := by omega
  rw [hdouble] at h ⊢
  simp (disch := omega) only [shifts, shift_ofNat_double]

theorem ofNat_byte_add (b : UInt8) (m : Nat) :
    BitVec.ofNat 32 (b.toNat + 256 * m) = b.toBitVec.setWidth 32 ^^^ BitVec.ofNat 32 (256 * m) := by
  refine BitVec.eq_of_getLsbD_eq fun i hi => ?_
  have hb : b.toNat < 2 ^ 8 := b.toNat_lt
  rw [BitVec.getLsbD_xor, BitVec.getLsbD_setWidth, BitVec.getLsbD_ofNat, BitVec.getLsbD_ofNat,
    Nat.add_comm, show 256 = 2 ^ 8 from rfl, Nat.testBit_two_pow_mul_add m hb i,
    Nat.testBit_two_pow_mul]
  split_ifs with hi8
  · simp [hi, Nat.not_le.2 hi8, BitVec.getLsbD]
  · simp [hi, Nat.le_of_not_lt hi8]

theorem register_eq_shifts (r : BitVec 32) (b : Bytes) (h : b.length ≤ 4) :
    register r b = shifts (8 * b.length) (r ^^^ BitVec.ofNat 32 (ofLittle b)) := by
  induction b generalizing r with
  | nil => simp [ofLittle, shifts]
  | cons x rest ih =>
    -- what follows the first byte leaves room for it below
    have hlen : rest.length ≤ 3 := Nat.le_of_succ_le_succ h
    have hsmall : 256 * ofLittle rest < UInt32.size := by
      have hlt : ofLittle rest < 16777216 := Bytes.ofLittle_lt hlen
      show 256 * ofLittle rest < 4294967296
      omega
    calc register r (x :: rest)
        = register (feed r x) rest := rfl
      _ = shifts (8 * rest.length) (feed r x ^^^ BitVec.ofNat 32 (ofLittle rest)) :=
          ih _ (by omega)
      _ = shifts (8 * rest.length) (shifts 8
            (r ^^^ (x.toBitVec.setWidth 32 ^^^ BitVec.ofNat 32 (256 * ofLittle rest)))) := by
          rw [← shifts_ofNat_byte _ hsmall, feed, ← shifts_xor, BitVec.xor_assoc]
      _ = shifts (8 * (x :: rest).length) (r ^^^ BitVec.ofNat 32 (ofLittle (x :: rest))) := by
          rw [← ofNat_byte_add, shifts_add, List.length_cons, ofLittle]
          congr 1
          omega

theorem eq_of_ofNat_ofLittle {x y : Bytes} (hlen : x.length = y.length) (hle : x.length ≤ 4)
    (h : BitVec.ofNat 32 (ofLittle x) = BitVec.ofNat 32 (ofLittle y)) : x = y := by
  have hx : ofLittle x < 2 ^ 32 := Bytes.ofLittle_lt hle
  have hy : ofLittle y < 2 ^ 32 := Bytes.ofLittle_lt (hlen ▸ hle)
  have hnat : ofLittle x = ofLittle y := by
    simpa only [BitVec.toNat_ofNat, Nat.mod_eq_of_lt hx, Nat.mod_eq_of_lt hy] using
      congrArg BitVec.toNat h
  rw [← Bytes.little_ofLittle x, ← Bytes.little_ofLittle y, hlen, hnat]

/-! ### Bursts and the check -/

/-- A burst of at most four bytes shows in the register. -/
theorem register_ne_of_burst {a b : Bytes} (h : Bytes.Burst 4 a b) (r : BitVec 32) :
    register r a ≠ register r b := by
  obtain ⟨p, x, y, s, rfl, rfl, hlen, hle, hne⟩ := h.exists_split
  intro heq
  simp only [register_append] at heq
  have hmiddle := register_injective s heq
  rw [register_eq_shifts _ x hle, register_eq_shifts _ y (hlen ▸ hle), hlen] at hmiddle
  have hword := (BitVec.xor_right_inj _).1 (shifts_injective _ hmiddle)
  exact hne (eq_of_ofNat_ofLittle hlen hle hword)

/-- Where fields with their check leave the register. -/
def residue : BitVec 32 := shifts 32 (BitVec.allOnes 32)

/-- The check is the inverted register, byte by byte in the order in which the register takes them,
so that it clears what the fields left there. -/
theorem register_withCheck (fields : Bytes) :
    register (BitVec.allOnes 32) (Layout.withCheck fields) = residue := by
  have hlen : (Bytes.ofUInt32 (crc32 fields)).length = 4 := Bytes.length_little 4 _
  have hword : BitVec.ofNat 32 (ofLittle (Bytes.ofUInt32 (crc32 fields))) =
      ~~~ register (BitVec.allOnes 32) fields := by
    rw [Bytes.ofUInt32, Bytes.ofLittle_little 4 _ (crc32 fields).toNat_lt]
    exact BitVec.ofNat_toNat _ _
  rw [Layout.withCheck, register_append, register_eq_shifts _ _ (Nat.le_of_eq hlen), hlen, hword,
    ← BitVec.xor_allOnes, ← BitVec.xor_assoc, BitVec.xor_self, BitVec.zero_xor]
  rfl

end Crc32

/-! ## The stored form -/

namespace Layout

theorem dropCheck_of_burst {fields b : Bytes} (h : Bytes.Burst 4 (withCheck fields) b) :
    dropCheck b = .error .checksum := by
  have hroom : ¬ b.length < 4 := by
    rw [← h.length_eq, withCheck, List.length_append, Bytes.ofUInt32, Bytes.length_little]
    omega
  cases hdrop : dropCheck b with
  | ok other =>
    -- whatever the fields are, with their check they leave the same register
    obtain rfl := dropCheck_eq_ok_iff.1 hdrop
    refine absurd ?_ (Crc32.register_ne_of_burst h (BitVec.allOnes 32))
    rw [Crc32.register_withCheck, Crc32.register_withCheck]
  | error e =>
    rw [dropCheck, if_neg hroom] at hdrop
    simp only at hdrop
    split_ifs at hdrop
    exact hdrop.symm

/-- A stored form that was changed within four neighbouring bytes is read as no version: the check
fails, wherever the change is, and so does every walk over the tree that comes upon it. -/
theorem burst_detected (v : Version) {b : Bytes} (h : Bytes.Burst 4 (encode v) b) :
    decode b = .error .checksum ∧ ∀ place, ∃ e, Item.version (.ok (place, b)) = .error e ∧
      e.kind = .corrupted ∧ e.reason = "Checksum mismatch" := by
  have hdecode : decode b = .error .checksum := by
    rw [decode_eq, dropCheck_of_burst h]
  refine ⟨hdecode, fun place => ⟨.damaged .checksum, ?_, rfl, rfl⟩⟩
  rw [Item.version, hdecode]

/-- The last two bytes of the fields and the first two of the check. -/
theorem burst_detected_astride :
    let v : Version :=
      { key := ⟨"t", .int 1⟩, number := 0, payload := some [112], beginTs := 5, endTs := none }
    let b := (encode v).take 46 ++ ([0, 1, 0, 0] ++ (encode v).drop 50)
    v.encode.length = 48 ∧ Bytes.Burst 4 (encode v) b ∧ decode b = .error .checksum := by
  intro v b
  have hsplit : encode v =
      (encode v).take 46 ++ (((encode v).drop 46).take 4 ++ (encode v).drop 50) := by
    decide +kernel
  have hburst : Bytes.Burst 4 (encode v) b := by
    rw [hsplit]
    exact Bytes.burst_append (by decide +kernel) (by decide +kernel) (by decide +kernel) _ _
  exact ⟨by decide +kernel, hburst, (burst_detected v hburst).1⟩

end Layout

end Mvcc
