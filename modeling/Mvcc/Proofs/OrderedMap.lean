import Mathlib.Data.List.Basic
import Mvcc.OrderedMap

/-!
# Lookups in ordered maps

* `eq_of_mem_iff`, `eq_of_get?_eq`: a map is given by its entries, and by its lookups.
* `mem_insert_iff`, `mem_erase_iff`: the entries after a change.
* `get?_insert`, `get?_erase`, `get?_insertIfNew`, `get?_mapValues`, `get?_modify`: the lookups
  after a change.
* `size_insert_of_get?_eq_none`, `size_erase_of_get?_eq_some`: the size after a change.
-/

namespace Mvcc

open Std

variable {κ β γ : Type} [Ord κ]

theorem Ascending.nodup [TransOrd κ] {l : List (κ × β)} (h : Ascending l) : l.Nodup := by
  refine h.imp fun {x y} hxy he => ?_
  subst he
  exact OrientedCmp.not_lt_of_lt hxy hxy

theorem Ascending.ext [TransOrd κ] {a b : List (κ × β)} (ha : Ascending a) (hb : Ascending b)
    (h : ∀ e, e ∈ a ↔ e ∈ b) : a = b := by
  refine List.Perm.eq_of_pairwise (fun x y _ _ hxy hyx => ?_) ha hb
    ((List.perm_ext_iff_of_nodup ha.nodup hb.nodup).2 h)
  exact absurd hyx (OrientedCmp.not_lt_of_lt hxy)

namespace OrderedMap

theorem contains_iff (m : OrderedMap κ β) (k : κ) :
    m.contains k = true ↔ ∃ v, m.get? k = some v := by
  rw [contains, Option.isSome_iff_exists]

variable [TransOrd κ]

theorem eq_of_mem_iff {a b : OrderedMap κ β} (h : ∀ e, e ∈ a.toList ↔ e ∈ b.toList) : a = b :=
  ext (a.ascending.ext b.ascending h)

theorem nodup_keys (m : OrderedMap κ β) : m.keys.Nodup := by
  refine List.pairwise_map.2 (m.ascending.imp fun hlt he => ?_)
  rw [he] at hlt
  exact OrientedCmp.not_lt_of_lt hlt hlt

variable [LawfulEqOrd κ]

theorem eq_of_get?_eq {a b : OrderedMap κ β} (h : ∀ k, a.get? k = b.get? k) : a = b :=
  eq_of_mem_iff fun ⟨k, v⟩ => by rw [mem_toList_iff, mem_toList_iff, h]

theorem get?_insert [DecidableEq κ] (m : OrderedMap κ β) (k k' : κ) (v : β) :
    (m.insert k v).get? k' = if k' = k then some v else m.get? k' := by
  split_ifs with h
  · rw [h, get?_insert_self]
  · exact get?_insert_of_ne m v h

theorem insert_of_get? [DecidableEq κ] (m : OrderedMap κ β) {k : κ} {v : β}
    (h : m.get? k = some v) : m.insert k v = m := by
  apply eq_of_get?_eq
  intro k'
  rw [get?_insert]
  split_ifs with hk
  · rw [hk, h]
  · rfl

theorem get?_erase [DecidableEq κ] (m : OrderedMap κ β) (k k' : κ) :
    (m.erase k).get? k' = if k' = k then none else m.get? k' := by
  split_ifs with h
  · rw [h, get?_erase_self]
  · exact get?_erase_of_ne m h

theorem get?_insertIfNew [DecidableEq κ] (m : OrderedMap κ β) (k k' : κ) (v : β) :
    (m.insertIfNew k v).get? k' = if k' = k then some ((m.get? k).getD v) else m.get? k' := by
  rw [insertIfNew]
  by_cases hc : m.contains k = true
  · obtain ⟨w, hw⟩ := (m.contains_iff k).1 hc
    rw [if_pos hc]
    split_ifs with h
    · rw [h, hw, Option.getD_some]
    · rfl
  · have hn : m.get? k = none := by simpa [contains] using hc
    rw [if_neg hc, get?_insert, hn, Option.getD_none]

theorem get?_mapValues (m : OrderedMap κ β) (f : κ → β → γ) (k : κ) :
    (m.mapValues f).get? k = (m.get? k).map (f k) := by
  apply Option.ext
  intro c
  rw [← Option.mem_def, Option.mem_def, ← mem_toList_iff, Option.map_eq_some_iff]
  simp only [← mem_toList_iff, mapValues, List.mem_map, Prod.mk.injEq]
  constructor
  · rintro ⟨⟨k', v⟩, hm, rfl, rfl⟩
    exact ⟨v, hm, rfl⟩
  · rintro ⟨v, hm, rfl⟩
    exact ⟨(k, v), hm, rfl, rfl⟩

theorem get?_modify [DecidableEq κ] (m : OrderedMap κ β) (k k' : κ) (f : β → β) :
    (m.modify k f).get? k' = if k' = k then (m.get? k').map f else m.get? k' := by
  rw [modify, get?_mapValues]
  split_ifs with h
  · rfl
  · exact Option.map_id'

theorem mem_insert_iff (m : OrderedMap κ β) (k : κ) (v : β) (e : κ × β) :
    e ∈ (m.insert k v).toList ↔ e = (k, v) ∨ e.1 ≠ k ∧ e ∈ m.toList := by
  classical
  obtain ⟨k', v'⟩ := e
  rw [mem_toList_iff, mem_toList_iff, get?_insert, Prod.mk.injEq]
  split_ifs with h
  · simp [h, eq_comm]
  · simp [h]

theorem mem_erase_iff (m : OrderedMap κ β) (k : κ) (e : κ × β) :
    e ∈ (m.erase k).toList ↔ e.1 ≠ k ∧ e ∈ m.toList := by
  classical
  obtain ⟨k', v'⟩ := e
  rw [mem_toList_iff, mem_toList_iff, get?_erase]
  split_ifs with h
  · simp [h]
  · simp [h]

theorem erase_modify [DecidableEq κ] (m : OrderedMap κ β) (k : κ) (f : β → β) :
    (m.modify k f).erase k = m.erase k := by
  apply eq_of_get?_eq
  intro k'
  rw [get?_erase, get?_erase, get?_modify]
  split_ifs <;> rfl

theorem size_insert_of_get?_eq_none (m : OrderedMap κ β) {k : κ} (v : β) (h : m.get? k = none) :
    (m.insert k v).size = m.size + 1 := by
  have hne : ∀ e ∈ m.toList, e.1 ≠ k := by
    rintro ⟨k', w⟩ he rfl
    rw [(m.mem_toList_iff k' w).1 he] at h
    cases h
  have hperm : List.Perm (m.insert k v).toList ((k, v) :: m.toList) := by
    refine (List.perm_ext_iff_of_nodup (m.insert k v).ascending.nodup ?_).2 fun e => ?_
    · exact List.nodup_cons.2 ⟨fun hmem => hne _ hmem rfl, m.ascending.nodup⟩
    · rw [mem_insert_iff, List.mem_cons]
      exact or_congr_right ⟨And.right, fun he => ⟨hne e he, he⟩⟩
  exact hperm.length_eq

theorem size_erase_of_get?_eq_some (m : OrderedMap κ β) {k : κ} {v : β} (h : m.get? k = some v) :
    (m.erase k).size + 1 = m.size := by
  have hself := size_insert_of_get?_eq_none (m.erase k) v (m.get?_erase_self k)
  have heq : (m.erase k).insert k v = m := by
    classical
    apply eq_of_get?_eq
    intro k'
    rw [get?_insert, get?_erase]
    split_ifs with hk
    · rw [hk, h]
    · rfl
  rw [← hself, heq]

end OrderedMap

end Mvcc
