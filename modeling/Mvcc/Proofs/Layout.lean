import Mvcc.Proofs.Tree
import Mvcc.Record.Layout

/-!
# Places in the tree

* `prefix_location_iff`: the places that begin with an encoded record key are those of the record.
* `location_inj`: a place tells the record and the number.
* `compare_location`: the versions of a record are placed in the order of their numbers.
-/

namespace Mvcc.Layout

open Std

variable {k k' : RecordKey}

theorem ofUInt64Big_inj {n n' : UInt64} (h : Bytes.ofUInt64Big n = Bytes.ofUInt64Big n') :
    n = n' := by
  have hto := congrArg Bytes.ofBig h
  rw [Bytes.ofUInt64Big, Bytes.ofUInt64Big, Bytes.ofBig_big 8 _ n.toNat_lt,
    Bytes.ofBig_big 8 _ n'.toNat_lt] at hto
  exact UInt64.toNat_inj.1 hto

/-- A decoder that reads `k` from the front of a string leaves no choice for the record. -/
theorem eq_of_encode_append (hk : k.Fits) (hk' : k'.Fits) {r r' : Bytes}
    (h : k.encode ++ r = k'.encode ++ r') : k = k' ∧ r = r' := by
  have hrun := RecordKey.run_decoder k r hk
  rw [h, RecordKey.run_decoder k' r' hk'] at hrun
  cases hrun
  exact ⟨rfl, rfl⟩

theorem prefix_location_iff (hk : k.Fits) (hk' : k'.Fits) (n : UInt64) :
    k.encode <+: location k' n ↔ k = k' := by
  constructor
  · rintro ⟨r, hr⟩
    exact (eq_of_encode_append hk hk' hr).1
  · rintro rfl
    exact List.prefix_append _ _

theorem location_inj (hk : k.Fits) (hk' : k'.Fits) {n n' : UInt64} :
    location k n = location k' n' ↔ k = k' ∧ n = n' := by
  constructor
  · intro h
    obtain ⟨rfl, hn⟩ := eq_of_encode_append hk hk' h
    exact ⟨rfl, ofUInt64Big_inj hn⟩
  · rintro ⟨rfl, rfl⟩
    rfl

theorem compare_location (k : RecordKey) (n n' : UInt64) :
    compare (location k n) (location k n') = compare n n' := by
  rw [location, location, Bytes.compare_append, Bytes.ofUInt64Big, Bytes.ofUInt64Big,
    Bytes.compare_big 8 _ _ n.toNat_lt n'.toNat_lt]
  rcases Nat.lt_trichotomy n.toNat n'.toNat with h | h | h
  · rw [Nat.compare_eq_lt.2 h, eq_comm, Std.compare_eq_lt]
    exact UInt64.lt_iff_toNat_lt.2 h
  · rw [Nat.compare_eq_eq.2 h, UInt64.toNat_inj.1 h]
    exact ReflCmp.compare_self.symm
  · rw [Nat.compare_eq_gt.2 h, eq_comm, Std.compare_eq_gt]
    exact UInt64.lt_iff_toNat_lt.2 h

theorem compare_location_eq_lt_iff (k : RecordKey) (n n' : UInt64) :
    compare (location k n) (location k n') = .lt ↔ n < n' := by
  rw [compare_location, Std.compare_eq_lt]

end Mvcc.Layout
