import Mvcc.Bytes.Word

/-!
# Decoders

A decoder takes what it reads from the front of a byte string and leaves the rest; it refuses a
string that is too short or holds what no encoder writes.

* `Decoder.take`, `word64`, `word32`, `int64`, `flag`: fixed fields.
* `Decoder.counted`, `text`: a length in eight bytes, then that many bytes.
* `run_word64`, `run_counted`, …: a decoder takes back what the encoder wrote, whatever follows.
-/

namespace Mvcc

/-- Reads a value from the front of a byte string. -/
abbrev Decoder (α : Type) := StateT Bytes Option α

namespace Bytes

/-- A byte string behind its length in eight bytes. -/
def counted (b : Bytes) : Bytes := ofUInt64 (UInt64.ofNat b.length) ++ b

/-- An optional field: a zero byte, or a one byte and the field. -/
def optional {α : Type} (encode : α → Bytes) : Option α → Bytes
  | none => [0]
  | some a => 1 :: encode a

end Bytes

namespace Decoder

variable {α : Type}

def take (n : Nat) : Decoder Bytes := fun b =>
  if n ≤ b.length then some (b.take n, b.drop n) else none

def word64 : Decoder UInt64 := do return UInt64.ofNat (Bytes.ofLittle (← take 8))

def word32 : Decoder UInt32 := do return UInt32.ofNat (Bytes.ofLittle (← take 4))

def int64 : Decoder Int64 := do return (← word64).toInt64

def counted : Decoder Bytes := do take (← word64).toNat

def text : Decoder String := do
  let b ← counted
  StateT.lift (Bytes.toText? b)

/-- One byte that says whether a field follows. -/
def flag : Decoder Bool := do
  match ← take 1 with
  | [0] => return false
  | [1] => return true
  | _ => StateT.lift none

def optional (decode : Decoder α) : Decoder (Option α) := do
  if ← flag then return some (← decode) else return none

/-! ## What an encoder wrote is taken back -/

theorem run_bind {β : Type} (d : Decoder α) (f : α → Decoder β) (b : Bytes) :
    StateT.run (d >>= f) b = (StateT.run d b).bind fun p => StateT.run (f p.1) p.2 := rfl

theorem run_take (b rest : Bytes) {n : Nat} (h : b.length = n) :
    StateT.run (take n) (b ++ rest) = some (b, rest) := by
  subst h
  simp [take, StateT.run]

@[simp] theorem run_word64 (v : UInt64) (rest : Bytes) :
    StateT.run word64 (Bytes.ofUInt64 v ++ rest) = some (v, rest) := by
  have h : Bytes.ofLittle (Bytes.ofUInt64 v) = v.toNat :=
    Bytes.ofLittle_little 8 v.toNat v.toNat_lt
  rw [word64, run_bind, run_take _ _ (by simp [Bytes.ofUInt64])]
  simp [h]

@[simp] theorem run_word32 (v : UInt32) (rest : Bytes) :
    StateT.run word32 (Bytes.ofUInt32 v ++ rest) = some (v, rest) := by
  have h : Bytes.ofLittle (Bytes.ofUInt32 v) = v.toNat :=
    Bytes.ofLittle_little 4 v.toNat v.toNat_lt
  rw [word32, run_bind, run_take _ _ (by simp [Bytes.ofUInt32])]
  simp [h]

@[simp] theorem run_int64 (v : Int64) (rest : Bytes) :
    StateT.run int64 (Bytes.ofInt64 v ++ rest) = some (v, rest) := by
  rw [int64, Bytes.ofInt64, run_bind, run_word64]
  simp

theorem run_counted (b rest : Bytes) (h : b.length < UInt64.size) :
    StateT.run counted (Bytes.counted b ++ rest) = some (b, rest) := by
  have hlen : (UInt64.ofNat b.length).toNat = b.length := by
    rw [UInt64.toNat_ofNat']; exact Nat.mod_eq_of_lt h
  rw [counted, Bytes.counted, List.append_assoc, run_bind, run_word64]
  simp only [Option.bind_some, hlen]
  exact run_take b rest rfl

theorem run_text (s : String) (rest : Bytes) (h : (Bytes.ofText s).length < UInt64.size) :
    StateT.run text (Bytes.counted (Bytes.ofText s) ++ rest) = some (s, rest) := by
  rw [text, run_bind, run_counted _ _ h]
  simp [StateT.run, StateT.lift, Bytes.toText?_ofText]

theorem run_optional {encode : α → Bytes} {decode : Decoder α} (o : Option α) (rest : Bytes)
    (h : ∀ a ∈ o, StateT.run decode (encode a ++ rest) = some (a, rest)) :
    StateT.run (optional decode) (Bytes.optional encode o ++ rest) = some (o, rest) := by
  cases o with
  | none => rfl
  | some a =>
    have hflag : StateT.run flag ([1] ++ (encode a ++ rest)) = some (true, encode a ++ rest) := rfl
    show StateT.run (optional decode) ([1] ++ (encode a ++ rest)) = _
    rw [optional, run_bind, hflag]
    simp only [Option.bind_some, if_true, run_bind, h a rfl]
    rfl

end Decoder

end Mvcc
