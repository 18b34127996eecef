/-!
# Ordered maps

An ordered map is a list of entries in strictly ascending key order, so that two maps with the same
entries are the same value and its list of entries is what a walk over it yields.

* `OrderedMap.insert`, `erase`, `get?`, `mapValues`, `mapValuesM`: the operations.
* `get?_insert_self`, `get?_insert_of_ne`, `get?_erase_self`, `get?_erase_of_ne`: what they do to a
  lookup.
* `mem_toList_iff`: lookups and the list of entries say the same.
-/

namespace Mvcc

open Std

/-- Every key is below the keys after it. -/
def Ascending {κ β : Type} [Ord κ] (entries : List (κ × β)) : Prop :=
  entries.Pairwise fun a b => compare a.1 b.1 = .lt

/-- Entries in strictly ascending key order. -/
structure OrderedMap (κ β : Type) [Ord κ] where
  toList : List (κ × β)
  /-- No key occurs twice and the keys ascend. -/
  ascending : Ascending toList

namespace OrderedMap

variable {κ β γ : Type} [Ord κ]

theorem ext {a b : OrderedMap κ β} (h : a.toList = b.toList) : a = b := by
  cases a; cases b; cases h; rfl

def empty : OrderedMap κ β := ⟨[], List.Pairwise.nil⟩

instance : EmptyCollection (OrderedMap κ β) := ⟨empty⟩

instance : Inhabited (OrderedMap κ β) := ⟨empty⟩

instance [DecidableEq κ] [DecidableEq β] : DecidableEq (OrderedMap κ β) := fun a b =>
  decidable_of_iff (a.toList = b.toList) ⟨ext, fun h => h ▸ rfl⟩

def size (m : OrderedMap κ β) : Nat := m.toList.length

def isEmpty (m : OrderedMap κ β) : Bool := m.toList.isEmpty

def keys (m : OrderedMap κ β) : List κ := m.toList.map (·.1)

def values (m : OrderedMap κ β) : List β := m.toList.map (·.2)

/-! ## Lookup -/

/-- The value kept under a key. -/
def get? (m : OrderedMap κ β) (k : κ) : Option β :=
  (m.toList.find? fun e => compare k e.1 == .eq).map (·.2)

def contains (m : OrderedMap κ β) (k : κ) : Bool := (m.get? k).isSome

/-! ## Insertion -/

/-- Puts an entry at its place in an ascending list, in place of one with the same key. -/
def insertEntry (k : κ) (v : β) : List (κ × β) → List (κ × β)
  | [] => [(k, v)]
  | e :: rest =>
    match compare k e.1 with
    | .lt => (k, v) :: e :: rest
    | .eq => (k, v) :: rest
    | .gt => e :: insertEntry k v rest

theorem mem_of_mem_insertEntry {k : κ} {v : β} {a : κ × β} {entries : List (κ × β)}
    (h : a ∈ insertEntry k v entries) : a = (k, v) ∨ a ∈ entries := by
  induction entries with
  | nil => simpa [insertEntry] using h
  | cons e rest ih =>
    rw [insertEntry] at h
    split at h <;> grind

theorem ascending_insertEntry [TransOrd κ] [LawfulEqOrd κ] (k : κ) (v : β)
    {entries : List (κ × β)} (h : Ascending entries) : Ascending (insertEntry k v entries) := by
  induction entries with
  | nil => exact List.pairwise_singleton _ _
  | cons e rest ih =>
    have hrest : Ascending rest := (List.pairwise_cons.1 h).2
    have hhead := (List.pairwise_cons.1 h).1
    rw [insertEntry]
    split
    · next hlt =>
      refine List.pairwise_cons.2 ⟨fun a ha => ?_, h⟩
      rcases List.mem_cons.1 ha with rfl | ha
      · exact hlt
      · exact TransCmp.lt_trans hlt (hhead a ha)
    · next heq =>
      have : k = e.1 := LawfulEqCmp.eq_of_compare heq
      subst this
      exact List.pairwise_cons.2 ⟨hhead, hrest⟩
    · next hgt =>
      refine List.pairwise_cons.2 ⟨fun a ha => ?_, ih hrest⟩
      rcases mem_of_mem_insertEntry ha with rfl | ha
      · exact OrientedCmp.lt_of_gt hgt
      · exact hhead a ha

/-- Keeps a value under a key, in place of an earlier one. -/
def insert [TransOrd κ] [LawfulEqOrd κ] (m : OrderedMap κ β) (k : κ) (v : β) : OrderedMap κ β :=
  ⟨insertEntry k v m.toList, ascending_insertEntry k v m.ascending⟩

/-- Keeps a value under a key that has none yet. -/
def insertIfNew [TransOrd κ] [LawfulEqOrd κ] (m : OrderedMap κ β) (k : κ) (v : β) :
    OrderedMap κ β :=
  if m.contains k then m else m.insert k v

/-! ## Removal and change -/

/-- Drops the entry of a key, if it has one. -/
def erase (m : OrderedMap κ β) (k : κ) : OrderedMap κ β :=
  ⟨m.toList.filter fun e => compare k e.1 != .eq, m.ascending.filter _⟩

theorem ascending_of_keys_eq {a : List (κ × β)} {b : List (κ × γ)}
    (h : b.map (·.1) = a.map (·.1)) (ha : Ascending a) : Ascending b := by
  have hkeys : (a.map (·.1)).Pairwise fun x y => compare x y = .lt := List.pairwise_map.2 ha
  rw [← h] at hkeys
  exact List.pairwise_map.1 hkeys

/-- Changes every value; the keys stay. -/
def mapValues (m : OrderedMap κ β) (f : κ → β → γ) : OrderedMap κ γ :=
  ⟨m.toList.map fun e => (e.1, f e.1 e.2),
    ascending_of_keys_eq (by simp [List.map_map, Function.comp_def]) m.ascending⟩

/-- Changes the value of one key, if it has one. -/
def modify [DecidableEq κ] (m : OrderedMap κ β) (k : κ) (f : β → β) : OrderedMap κ β :=
  m.mapValues fun k' v => if k' = k then f v else v

/-- Changes every value with an effect, least key first, and keeps the keys. -/
def mapEntriesM {m : Type → Type} [Monad m] (f : κ → β → m γ) :
    (entries : List (κ × β)) → m { r : List (κ × γ) // r.map (·.1) = entries.map (·.1) }
  | [] => pure ⟨[], rfl⟩
  | e :: rest => do
    let v ← f e.1 e.2
    let done ← mapEntriesM f rest
    pure ⟨(e.1, v) :: done.1, by simp [done.2]⟩

/-- Changes every value with an effect, least key first; the keys stay. -/
def mapValuesM {m : Type → Type} [Monad m] (t : OrderedMap κ β) (f : κ → β → m γ) :
    m (OrderedMap κ γ) := do
  let done ← mapEntriesM f t.toList
  pure ⟨done.1, ascending_of_keys_eq done.2 t.ascending⟩

/-- The map of a list of entries; of two with one key the later stays. -/
def ofList [TransOrd κ] [LawfulEqOrd κ] (entries : List (κ × β)) : OrderedMap κ β :=
  entries.foldl (fun m e => m.insert e.1 e.2) ∅

/-! ## Lookup after a change -/

@[simp] theorem get?_empty (k : κ) : (∅ : OrderedMap κ β).get? k = none := rfl

theorem get?_insert_self [TransOrd κ] [LawfulEqOrd κ] (m : OrderedMap κ β) (k : κ) (v : β) :
    (m.insert k v).get? k = some v := by
  obtain ⟨entries, h⟩ := m
  simp only [insert, get?]
  clear h
  induction entries with
  | nil => simp [insertEntry, ReflCmp.compare_self]
  | cons e rest ih =>
    rw [insertEntry]
    split
    · simp [ReflCmp.compare_self]
    · simp [ReflCmp.compare_self]
    · next hgt => rw [List.find?_cons_of_neg (by simp [hgt])]; exact ih

theorem get?_insert_of_ne [TransOrd κ] [LawfulEqOrd κ] (m : OrderedMap κ β) {k k' : κ} (v : β)
    (hne : k' ≠ k) : (m.insert k v).get? k' = m.get? k' := by
  obtain ⟨entries, h⟩ := m
  simp only [insert, get?]
  clear h
  have hk : ¬ (compare k' k == .eq) = true := by
    simpa using hne
  induction entries with
  | nil => simp [insertEntry, hk]
  | cons e rest ih =>
    rw [insertEntry]
    split
    · simp only [List.find?_cons, hk]
    · next heq =>
      have : k = e.1 := LawfulEqCmp.eq_of_compare heq
      subst this
      simp only [List.find?_cons, hk]
    · simp only [List.find?_cons]
      split <;> simp_all

theorem get?_erase_self [TransOrd κ] [LawfulEqOrd κ] (m : OrderedMap κ β) (k : κ) :
    (m.erase k).get? k = none := by
  simp only [erase, get?, List.find?_filter, Option.map_eq_none_iff, List.find?_eq_none]
  intro e _
  cases compare k e.1 <;> simp

theorem get?_erase_of_ne [TransOrd κ] [LawfulEqOrd κ] (m : OrderedMap κ β) {k k' : κ}
    (hne : k' ≠ k) : (m.erase k).get? k' = m.get? k' := by
  simp only [erase, get?, List.find?_filter]
  congr 2
  funext e
  by_cases h : compare k' e.1 = .eq
  · have : k' = e.1 := LawfulEqCmp.eq_of_compare h
    subst this
    simpa using Ne.symm hne
  · simp [h]

/-! ## Entries and lookups -/

theorem mem_toList_iff [TransOrd κ] [LawfulEqOrd κ] (m : OrderedMap κ β) (k : κ) (v : β) :
    (k, v) ∈ m.toList ↔ m.get? k = some v := by
  obtain ⟨entries, h⟩ := m
  simp only [get?]
  induction entries with
  | nil => simp
  | cons e rest ih =>
    obtain ⟨k', v'⟩ := e
    have hrest := ih (List.pairwise_cons.1 h).2
    have hhead := (List.pairwise_cons.1 h).1
    rw [List.find?_cons]
    split
    · next heq =>
      have : k = k' := by simpa using heq
      subst this
      constructor
      · intro hm
        rcases List.mem_cons.1 hm with he | hm
        · simp only [Prod.mk.injEq] at he
          simp [he.2]
        · have := hhead _ hm
          simp [ReflCmp.compare_self] at this
      · intro he
        simp only [Option.map_some, Option.some.injEq] at he
        simp [he]
    · next hne =>
      rw [← hrest]
      have : k ≠ k' := by
        rintro rfl
        simp [ReflCmp.compare_self] at hne
      simp [this]

@[simp] theorem toList_empty : (∅ : OrderedMap κ β).toList = [] := rfl

@[simp] theorem keys_mapValues (m : OrderedMap κ β) (f : κ → β → γ) :
    (m.mapValues f).keys = m.keys := by
  simp [keys, mapValues]

end OrderedMap

end Mvcc
