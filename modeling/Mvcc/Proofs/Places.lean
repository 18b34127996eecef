import Mathlib.Data.Set.List
import Mvcc.Proofs.PrefixScan
import Mvcc.Proofs.Refinement

/-!
# Places of records

The versions of a record are found by one scan, because the encoded key of a record tells where it
ends: it begins the places of that record and of no other. What follows it there is the number, and
numbers are ordered as they are written.

* `Layout.location_lt_iff`: the places of a record are in the order of the numbers.
* `Tree.Filed`, `Filed.exists_numbered`: a tree with entries at places only, and what a scan finds
  in it.
* `Encodes.filed`, `Encodes.chained`: so it is in a tree of versions, and a scan finds a chain.
* `Layout.Places`, `Layout.places_of_fits`: the result, for any two records and stores.
-/

namespace Mvcc

open Std
open Layout (location)

theorem Layout.location_lt_iff (k : RecordKey) (n n' : UInt64) :
    location k n < location k n' ↔ n < n' := by
  rw [← Bytes.compare_eq_lt_iff, compare_location_eq_lt_iff]

namespace Tree

/-- Every entry is at the place of some record and number. -/
def Filed (t : Tree) : Prop := ∀ e ∈ t.toList, ∃ k n, k.Fits ∧ e.1 = location k n

/-- A scan for a record finds these values, and they are all that is kept at its places. -/
structure Numbered (t : Tree) (k : RecordKey) (l : List (UInt64 × Bytes)) : Prop where
  scanPrefix_eq : t.scanPrefix k.encode = l.map fun e => (location k e.1, e.2)
  ascending : l.Pairwise fun a b => a.1 < b.1
  mem_iff : ∀ n b, (n, b) ∈ l ↔ t.get? (location k n) = some b

/-- A scan for a record finds these versions, and they are all that is kept of it. -/
structure Chained (t : Tree) (k : RecordKey) (c : Chain) : Prop where
  scanPrefix_eq : t.scanPrefix k.encode = c.map Version.entry
  ascending : c.Pairwise fun u v => u.number < v.number
  mem_iff : ∀ v, v ∈ c ↔ v.Fits ∧ v.key = k ∧ v.entry ∈ t.toList

variable {t : Tree} {a : Chains} {k : RecordKey}

theorem Filed.exists_numbered (h : t.Filed) (hk : k.Fits) : ∃ l, t.Numbered k l := by
  have hscan := t.scanPrefix_eq_filter k.encode
  have hplaces : ∀ e ∈ t.scanPrefix k.encode,
      e ∈ Set.range fun e : UInt64 × Bytes => (location k e.1, e.2) := by
    intro e he
    rw [hscan, List.mem_filter, List.isPrefixOf_iff_prefix] at he
    obtain ⟨k', n, hk', hloc⟩ := h e he.1
    -- the places of other records begin otherwise
    obtain rfl : k = k' := (Layout.prefix_location_iff hk hk' n).1 (hloc ▸ he.2)
    exact ⟨(n, e.2), Prod.ext hloc.symm rfl⟩
  obtain ⟨l, hl⟩ : t.scanPrefix k.encode ∈
      Set.range (List.map fun e : UInt64 × Bytes => (location k e.1, e.2)) := by
    rw [Set.range_list_map]
    exact hplaces
  refine ⟨l, hl.symm, ?_, fun n b => ?_⟩
  · have hasc : Ascending (t.scanPrefix k.encode) := hscan ▸ t.ascending.filter _
    rw [← hl] at hasc
    exact (List.pairwise_map.1 hasc).imp (Layout.compare_location_eq_lt_iff k _ _).1
  · have hmem : (n, b) ∈ l ↔ (location k n, b) ∈ t.scanPrefix k.encode := by
      rw [← hl, List.mem_map]
      constructor
      · exact fun hm => ⟨(n, b), hm, rfl⟩
      · rintro ⟨⟨n', b'⟩, hm, heq⟩
        obtain ⟨hloc, rfl⟩ := Prod.mk.inj heq
        obtain ⟨-, rfl⟩ := (Layout.location_inj hk hk).1 hloc
        exact hm
    rw [hmem, hscan, List.mem_filter, List.isPrefixOf_iff_prefix, OrderedMap.mem_toList_iff]
    exact and_iff_left (List.prefix_append ..)

theorem Encodes.filed (h : t.Encodes a) : t.Filed := by
  intro e he
  obtain ⟨k, v, hv, rfl⟩ := (h.mem_iff e).1 he
  exact ⟨v.key, v.number, (h.fits k v hv).1, rfl⟩

theorem Encodes.chained (h : t.Encodes a) (hk : k.Fits) : t.Chained k (a k) where
  scanPrefix_eq := h.scanPrefix_eq hk
  ascending := h.ascending k
  mem_iff v := by
    constructor
    · exact fun hv => ⟨h.fits k v hv, h.key_eq k v hv, (h.mem_iff _).2 ⟨k, v, hv, rfl⟩⟩
    · rintro ⟨hfits, rfl, hmem⟩
      obtain ⟨k', u, hu, heq⟩ := (h.mem_iff _).1 hmem
      obtain rfl := Version.entry_inj hfits (h.fits k' u hu) heq
      rwa [h.key_eq k' v hu]

end Tree

namespace Layout

/-- How the places of one record are told from those of another, and what a scan for the first
record finds. -/
structure Places (k k' : RecordKey) (n n' : UInt64) : Prop where
  prefix_iff : k.encode <+: location k' n ↔ k = k'
  lt_iff : location k n < location k n' ↔ n < n'
  numbered : ∀ t : Tree, t.Filed → ∃ l, t.Numbered k l
  /-- A store has entries at places only, whatever was asked of it and however it ended. -/
  chained : ∀ (s : Store) (qs : List Request), s.tree = ∅ → (∀ q ∈ qs, q.Fits) →
    (Request.run Store.serve s qs).2.tree.Filed ∧
      ∃ c, (Request.run Store.serve s qs).2.tree.Chained k c

/-- The places of a record begin with its key and those of other records do not, and they are in the
order of the numbers. So a scan finds the versions of one record, from the first to the last. -/
theorem places_of_fits {k k' : RecordKey} (hk : k.Fits) (hk' : k'.Fits) (n n' : UInt64) :
    Places k k' n n' where
  prefix_iff := prefix_location_iff hk hk' n
  lt_iff := location_lt_iff k n n'
  numbered _ h := h.exists_numbered hk
  chained s qs htree hqs := by
    obtain ⟨c, hc⟩ := Store.exists_encodes_run (Tree.encodes_chain_empty htree) hqs
    exact ⟨hc.filed, c.chain k, hc.chained hk⟩

/-- A text that begins another one, and two numbers whose low bytes are in the other order, in a
store with versions of both records. -/
theorem places_of_fits_carry :
    let k : RecordKey := ⟨"t", .text "a"⟩
    let k' : RecordKey := ⟨"t", .text "ab"⟩
    let first : Version := { key := k, number := 255, payload := some [7], beginTs := 1 }
    let second : Version := { key := k, number := 256, payload := none, beginTs := 2 }
    let other : Version := { key := k', number := 255, payload := some [8], beginTs := 1 }
    let qs : List Request := [.install [other, first], .install [second]]
    let t := (Request.run Store.serve Store.empty qs).2.tree
    k.Fits ∧ k'.Fits ∧ Places k k' 255 256 ∧ ¬ k.encode <+: location k' 255 ∧
      location k 255 < location k 256 ∧ t.Filed ∧
      t.scanPrefix k.encode = [first.closedAt 2, second].map Version.entry := by
  intro k k' first second other qs t
  have hk : k.Fits := ⟨by decide +kernel, show (Bytes.ofText "a").length < _ by decide +kernel⟩
  have hk' : k'.Fits := ⟨by decide +kernel, show (Bytes.ofText "ab").length < _ by decide +kernel⟩
  have hqs : ∀ q ∈ qs, q.Fits := by
    simp only [qs, List.forall_mem_cons, Request.Fits]
    exact ⟨⟨⟨hk', by decide⟩, ⟨hk, by decide⟩, by simp⟩, ⟨⟨hk, by decide⟩, by simp⟩, by simp⟩
  have hplaces := places_of_fits hk hk' 255 256
  have hother : ¬ k.encode <+: location k' 255 := fun h =>
    absurd (hplaces.prefix_iff.1 h) (by decide)
  exact ⟨hk, hk', hplaces, hother, hplaces.lt_iff.2 (by decide),
    (hplaces.chained Store.empty qs rfl hqs).1, by decide +kernel⟩

end Layout

end Mvcc
