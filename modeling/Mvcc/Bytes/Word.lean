import Mvcc.Bytes.Basic

/-!
# Numbers as byte strings

A number is written in a fixed count of bytes, least significant first (`little`) or most
significant first (`big`).

* `limit`: how many numbers fit into a count of bytes.
* `ofLittle_little`, `ofBig_big`: a number that fits is read back.
* `length_little`, `length_big`: the count of bytes.
-/

namespace Mvcc.Bytes

/-- How many numbers fit into `n` bytes. -/
def limit : (n : Nat) → Nat
  | 0 => 1
  | n + 1 => 256 * limit n

/-- The `n` low bytes of a number, least significant first. -/
def little : (n : Nat) → Nat → Bytes
  | 0, _ => []
  | n + 1, v => UInt8.ofNat v :: little n (v / 256)

/-- The number whose bytes these are, least significant first. -/
def ofLittle : Bytes → Nat
  | [] => 0
  | b :: rest => b.toNat + 256 * ofLittle rest

/-- The `n` low bytes of a number, most significant first. -/
def big (n v : Nat) : Bytes := (little n v).reverse

/-- The number whose bytes these are, most significant first. -/
def ofBig (b : Bytes) : Nat := ofLittle b.reverse

@[simp] theorem length_little (n v : Nat) : (little n v).length = n := by
  induction n generalizing v with
  | zero => rfl
  | succ n ih => simp [little, ih]

@[simp] theorem length_big (n v : Nat) : (big n v).length = n := by simp [big]

theorem ofLittle_little (n v : Nat) (h : v < limit n) : ofLittle (little n v) = v := by
  induction n generalizing v with
  | zero => simp only [limit, Nat.lt_one_iff] at h; simp [little, ofLittle, h]
  | succ n ih =>
    have hdiv : v / 256 < limit n := by
      rw [Nat.div_lt_iff_lt_mul (by decide), Nat.mul_comm]
      exact h
    simp only [little, ofLittle, ih _ hdiv, UInt8.toNat_ofNat']
    omega

theorem ofBig_big (n v : Nat) (h : v < limit n) : ofBig (big n v) = v := by
  simp [ofBig, big, ofLittle_little n v h]

theorem little_ofLittle (b : Bytes) : little b.length (ofLittle b) = b := by
  induction b with
  | nil => rfl
  | cons x rest ih =>
    have hx : x.toNat < 256 := x.toNat_lt
    have hdiv : (x.toNat + 256 * ofLittle rest) / 256 = ofLittle rest := by omega
    have hlow : UInt8.ofNat (x.toNat + 256 * ofLittle rest) = x := by
      rw [← UInt8.toNat_inj, UInt8.toNat_ofNat']
      omega
    simp only [List.length_cons, little, ofLittle, hdiv, ih, hlow]

def ofUInt64 (v : UInt64) : Bytes := little 8 v.toNat

/-- Eight bytes of a word, most significant first; their order is the order of the words. -/
def ofUInt64Big (v : UInt64) : Bytes := big 8 v.toNat

def ofUInt32 (v : UInt32) : Bytes := little 4 v.toNat

/-- Eight bytes of a signed word in two's complement, least significant first. -/
def ofInt64 (v : Int64) : Bytes := ofUInt64 v.toUInt64

end Mvcc.Bytes
