import Mvcc.Record.Version

/-!
# The clock

One clock orders all begins and commits. It counts up and stops at the greatest timestamp.

* `Clock.tick?`: the clock after one more timestamp, which is then its last.
* `lt_last_of_tick?`, `tick?_eq_none_iff`: timestamps ascend until none is left.
-/

namespace Mvcc

def Timestamp.greatest : Timestamp := 0xFFFFFFFFFFFFFFFF

/-- The source of timestamps. -/
structure Clock where
  /-- The timestamp issued last; zero before the first. -/
  last : Timestamp := 0
  deriving DecidableEq, Inhabited

namespace Clock

/-- Issues the next timestamp, if one is left. -/
def tick? (c : Clock) : Option Clock :=
  if c.last = Timestamp.greatest then none else some { last := c.last + 1 }

theorem tick?_eq_none_iff (c : Clock) : c.tick? = none ↔ c.last = Timestamp.greatest := by
  simp [tick?]

theorem toNat_last_of_tick? {c c' : Clock} (h : c.tick? = some c') :
    c'.last.toNat = c.last.toNat + 1 := by
  rw [tick?] at h
  split at h
  · contradiction
  · next hne =>
    cases h
    have hlt : c.last.toNat ≠ 2 ^ 64 - 1 := fun he => hne (UInt64.toNat_inj.1 he)
    have := c.last.toNat_lt
    rw [UInt64.toNat_add]
    show (c.last.toNat + 1) % 2 ^ 64 = _
    omega

theorem lt_last_of_tick? {c c' : Clock} (h : c.tick? = some c') : c.last < c'.last := by
  rw [UInt64.lt_iff_toNat_lt, toNat_last_of_tick? h]
  omega

theorem last_le_of_tick? {c c' : Clock} (h : c' = c ∨ c.tick? = some c') : c.last ≤ c'.last := by
  rcases h with rfl | htick
  · exact UInt64.le_refl _
  · exact UInt64.le_of_lt (lt_last_of_tick? htick)

end Clock

end Mvcc
