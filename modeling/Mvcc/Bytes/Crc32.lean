import Mvcc.Bytes.Word

/-!
# The cyclic redundancy check of 32 bits

The check of IEEE 802.3: reflected, with the generator `0xEDB88320`, a register that starts as all
ones and is inverted at the end. The register takes one bit a step; a byte is put into its low bits
and shifted out by eight steps.

* `Crc32.shift`, `feed`, `register`: one bit, one byte, a byte string.
* `crc32`: the check of a byte string.
* `shift_xor`: a step is linear, so differences of registers evolve by themselves.
-/

namespace Mvcc

namespace Crc32

/-- The generator polynomial, its bits reversed. -/
def generator : BitVec 32 := 0xEDB88320#32

/-- Shifts one bit out; if it was set, the generator is taken off. -/
def shift (r : BitVec 32) : BitVec 32 :=
  if r.getLsbD 0 then (r >>> 1) ^^^ generator else r >>> 1

def shifts : Nat → BitVec 32 → BitVec 32
  | 0, r => r
  | n + 1, r => shifts n (shift r)

/-- Takes one byte into the register. -/
def feed (r : BitVec 32) (b : UInt8) : BitVec 32 :=
  shifts 8 (r ^^^ b.toBitVec.setWidth 32)

def register (r : BitVec 32) (b : Bytes) : BitVec 32 := b.foldl feed r

@[simp] theorem register_nil (r : BitVec 32) : register r [] = r := rfl

@[simp] theorem register_append (r : BitVec 32) (a b : Bytes) :
    register r (a ++ b) = register (register r a) b := List.foldl_append

theorem shift_xor (a b : BitVec 32) : shift (a ^^^ b) = shift a ^^^ shift b := by
  have hcancel (g x : BitVec 32) : g ^^^ (g ^^^ x) = x := by rw [← BitVec.xor_assoc]; simp
  simp only [shift, BitVec.getLsbD_xor, BitVec.ushiftRight_xor_distrib]
  cases a.getLsbD 0 <;> cases b.getLsbD 0 <;> simp only [Bool.xor_true, Bool.xor_false,
    Bool.not_true, Bool.not_false, Bool.false_eq_true, if_true, if_false]
  · ac_rfl
  · ac_rfl
  · rw [show (a >>> 1 ^^^ generator) ^^^ (b >>> 1 ^^^ generator) =
      generator ^^^ (generator ^^^ (a >>> 1 ^^^ b >>> 1)) by ac_rfl, hcancel]

theorem shifts_xor (n : Nat) (a b : BitVec 32) :
    shifts n (a ^^^ b) = shifts n a ^^^ shifts n b := by
  induction n generalizing a b with
  | zero => rfl
  | succ n ih => simp [shifts, shift_xor, ih]

end Crc32

def crc32 (b : Bytes) : UInt32 :=
  UInt32.ofBitVec (~~~ Crc32.register (BitVec.allOnes 32) b)

example : crc32 (Bytes.ofText "123456789") = 0xCBF43926 := by decide +kernel

end Mvcc
