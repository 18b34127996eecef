import Mathlib.Data.List.Induction
import Mathlib.Data.List.Nodup
import Mvcc.Proofs.Probe
import Mvcc.Proofs.Tree

/-!
# Scans after updates

A medium starts empty and is updated, entry by entry and in batches. Whatever the updates were, a
scan for the keys with a beginning finds what a walk finds with all other keys left out. It may
start late and stop early because those keys lie side by side.

* `Bytes.compare_eq_lt_iff`: the order of a tree is the lexicographic order of its keys.
* `Tree.mem_apply_iff`: what is kept under a key is what was inserted there last.
* `Tree.exists_stretch`: what comes before a scan is below the beginning, what comes after it is
  above the beginning and does not have it.
* `Medium.update_of_reliable`, `updates_of_reliable`: one update, and any number of them.
* `Medium.Scanned`, `Medium.scanned_of_updates`: the result.
-/

namespace Mvcc

open Std

theorem Bytes.compare_eq_lt_iff (x y : Bytes) : compare x y = .lt ↔ x < y := by
  induction x generalizing y with
  | nil =>
    cases y with
    | nil => exact iff_of_false (by decide) (List.lt_irrefl [])
    | cons b y => exact iff_of_true rfl (List.nil_lt_cons b y)
  | cons a x ih =>
    cases y with
    | nil => exact iff_of_false (by rintro ⟨⟩) (List.not_lt_nil _)
    | cons b y =>
      rw [compare_cons, Ordering.then_eq_lt, Std.compare_eq_lt, Std.compare_eq_iff_eq, ih,
        List.cons_lt_cons_iff]

/-! ## What changes leave behind -/

/-- The key under which something is changed. -/
def Edit.key : Edit → Bytes
  | insert k _ | remove k => k

namespace Batch

/-- The last change of what is kept under a key. -/
def last? (b : Batch) (k : Bytes) : Option Edit := (b.filter fun e => e.key == k).getLast?

theorem last?_concat (b : Batch) (e : Edit) (k : Bytes) :
    last? (b ++ [e]) k = if k = e.key then some e else b.last? k := by
  rw [last?, last?, List.filter_append, List.getLast?_append, List.filter_cons]
  by_cases hk : k = e.key
  · simp [hk]
  · have hne : (e.key == k) = false := beq_false_of_ne (Ne.symm hk)
    simp [hk, hne]

end Batch

namespace Tree

variable {p : Bytes} {entries : List (Bytes × Bytes)}

/-- An entry is in the tree that changes make of an empty one if it is what the last change of its
key inserted. -/
theorem mem_apply_iff (b : Batch) (k v : Bytes) :
    (k, v) ∈ (apply ∅ b).toList ↔ b.last? k = some (.insert k v) := by
  induction b using List.reverseRecOn with
  | nil => simp [Batch.last?]
  | append_singleton b e ih =>
    have hlast : apply ∅ (b ++ [e]) = (apply ∅ b).edit e := List.foldl_concat ..
    rw [hlast, Batch.last?_concat]
    cases e with
    | insert k' v' =>
      show (k, v) ∈ (OrderedMap.insert _ k' v').toList ↔ (if k = k' then _ else _) = _
      rw [OrderedMap.mem_insert_iff, ih]
      by_cases hk : k = k'
      · simp [hk, eq_comm]
      · simp [hk]
    | remove k' =>
      show (k, v) ∈ (OrderedMap.erase _ k').toList ↔ (if k = k' then _ else _) = _
      rw [OrderedMap.mem_erase_iff, ih]
      by_cases hk : k = k'
      · simp [hk]
      · simp [hk]

/-! ## Where a scan starts and stops -/

theorem not_lt_of_mem_dropWhile (h : Ascending entries) {e : Bytes × Bytes}
    (he : e ∈ entries.dropWhile fun e => compare e.1 p == .lt) : compare e.1 p ≠ .lt := by
  induction entries with
  | nil => cases he
  | cons f rest ih =>
    obtain ⟨hhead, hrest⟩ := List.pairwise_cons.1 h
    by_cases hf : compare f.1 p = .lt
    · rw [List.dropWhile_cons_of_pos (by simp [hf])] at he
      exact ih hrest he
    · rw [List.dropWhile_cons_of_neg (by simp [hf])] at he
      rcases List.mem_cons.1 he with rfl | he
      · exact hf
      · exact fun hlt => hf (TransCmp.lt_trans (hhead e he) hlt)

theorem exists_stretch (t : Tree) (p : Bytes) :
    ∃ below beyond, t.toList = below ++ t.scanPrefix p ++ beyond ∧ (∀ e ∈ below, e.1 < p) ∧
      ∀ e ∈ beyond, p < e.1 ∧ ¬ p <+: e.1 := by
  let low : Bytes × Bytes → Bool := fun e => compare e.1 p == .lt
  let has : Bytes × Bytes → Bool := fun e => p.isPrefixOf e.1
  have hscan : t.scanPrefix p = (t.toList.dropWhile low).takeWhile has := rfl
  have hsplit : t.toList =
      t.toList.takeWhile low ++ t.scanPrefix p ++ (t.toList.dropWhile low).dropWhile has := by
    rw [hscan, List.append_assoc, List.takeWhile_append_dropWhile, List.takeWhile_append_dropWhile]
  refine ⟨_, _, hsplit, fun e he => ?_, fun e he => ?_⟩
  · have hlow : low e = true := List.all_eq_true.1 List.all_takeWhile e he
    exact (Bytes.compare_eq_lt_iff _ _).1 (by simpa [low] using hlow)
  have hrest : e ∈ t.toList.dropWhile low := (List.dropWhile_sublist _).subset he
  have hno : ¬ p <+: e.1 := by
    intro hp
    -- the scan has all entries with the beginning, and no entry stands twice
    have hfound : e ∈ t.scanPrefix p := by
      rw [scanPrefix_eq_filter, List.mem_filter, List.isPrefixOf_iff_prefix]
      exact ⟨(List.dropWhile_sublist _).subset hrest, hp⟩
    have hnodup := t.ascending.nodup
    rw [hsplit] at hnodup
    exact List.disjoint_of_nodup_append hnodup (List.mem_append_right _ hfound) he
  refine ⟨?_, hno⟩
  have hle : compare e.1 p ≠ .lt := not_lt_of_mem_dropWhile t.ascending hrest
  rw [← Bytes.compare_eq_lt_iff]
  cases hcmp : compare p e.1 with
  | lt => rfl
  | eq =>
    have heq : p = e.1 := LawfulEqCmp.eq_of_compare hcmp
    exact absurd (heq ▸ List.prefix_rfl) hno
  | gt => exact absurd (OrientedCmp.lt_of_gt hcmp) hle

end Tree

/-! ## Updates and scans of a medium -/

namespace Medium

/-- A call that changes what is kept. -/
inductive Update where
  | insert (key value : Bytes)
  | batch (b : Batch)

/-- The changes that an update makes. -/
def Update.edits : Update → Batch
  | insert k v => [.insert k v]
  | batch b => b

def update (m : Medium) : Update → Except StoreError Unit × Medium
  | .insert k v => m.insert k v
  | .batch b => m.applyBatch b

/-- The medium after updates, one after the other. -/
def updates (m : Medium) (us : List Update) : Medium := us.foldl (fun m u => (m.update u).2) m

variable {m : Medium}

theorem change_of_reliable (h : m.plan = Plan.reliable) (c : Call) (f : Tree → Tree) :
    m.change c f = (.ok (), { m with tree := f m.tree, tally := m.tally.step c }) := by
  rw [change, h]
  rfl

theorem update_of_reliable (h : m.plan = Plan.reliable) (u : Update) :
    (m.update u).1 = .ok () ∧ (m.update u).2.plan = Plan.reliable ∧
      (m.update u).2.tree = m.tree.apply u.edits := by
  cases u with
  | insert k v =>
    rw [update, insert, change_of_reliable h]
    exact ⟨rfl, h, rfl⟩
  | batch b =>
    rw [update, applyBatch, change_of_reliable h]
    exact ⟨rfl, h, rfl⟩

theorem updates_of_reliable (h : m.plan = Plan.reliable) (us : List Update) :
    (m.updates us).plan = Plan.reliable ∧
      (m.updates us).tree = m.tree.apply (us.flatMap Update.edits) := by
  induction us generalizing m with
  | nil => exact ⟨h, rfl⟩
  | cons u us ih =>
    obtain ⟨-, hplan, htree⟩ := update_of_reliable h u
    obtain ⟨hplan', htree'⟩ := ih hplan
    refine ⟨hplan', ?_⟩
    rw [List.flatMap_cons, Tree.apply, List.foldl_append]
    exact htree'.trans (by rw [htree]; rfl)

theorem read_items_of_reliable (h : m.plan = Plan.reliable) (c : Call)
    (entries : Tree → List (Bytes × Bytes)) :
    (m.read (Probe.items c entries)).1 = .ok ((entries m.tree).map .ok) := by
  have hexec := Probe.exec_items (t := m.tree) c entries m.plan m.tally
  exact (congrArg Prod.fst hexec).trans (by rw [h]; rfl)

/-- What a walk over a medium and a scan for the keys that begin with `start` find, when the medium
holds what the changes `b` left of an empty tree. -/
structure Scanned (m : Medium) (b : Batch) (start : Bytes) (all found : List (Bytes × Bytes)) :
    Prop where
  iterate : (m.read Probe.iterate).1 = .ok (all.map .ok)
  scanPrefix : (m.read (Probe.scanPrefix start)).1 = .ok (found.map .ok)
  mem_iff : ∀ k v, (k, v) ∈ all ↔ b.last? k = some (.insert k v)
  eq_filter : found = all.filter fun e => start.isPrefixOf e.1
  ascending : (found.map (·.1)).Pairwise (· < ·)
  nodup : (found.map (·.1)).Nodup
  /-- The scan passes over the keys below `start` and leaves off at one that does not begin with it;
  no later key does. -/
  stretch : ∃ below beyond, all = below ++ found ++ beyond ∧ (∀ e ∈ below, e.1 < start) ∧
    ∀ e ∈ beyond, start < e.1 ∧ ¬ start <+: e.1

/-- However a medium was updated since it was empty, a scan finds what a walk finds, less the keys
that do not have the beginning. -/
theorem scanned_of_updates (us : List Update) (start : Bytes) :
    ∃ all found, Scanned ((ofTree ∅).updates us) (us.flatMap Update.edits) start all found := by
  obtain ⟨hplan, htree⟩ := updates_of_reliable (m := ofTree ∅) rfl us
  generalize (ofTree ∅).updates us = m at hplan htree
  have hfound := m.tree.scanPrefix_eq_filter start
  have hsub : ((m.tree.scanPrefix start).map (·.1)).Sublist (m.tree.toList.map (·.1)) := by
    rw [hfound]
    exact List.filter_sublist.map _
  have hkeys : (m.tree.toList.map (·.1)).Pairwise (· < ·) :=
    List.pairwise_map.2 (m.tree.ascending.imp fun hlt => (Bytes.compare_eq_lt_iff _ _).1 hlt)
  refine ⟨m.tree.toList, m.tree.scanPrefix start, ?_⟩
  exact {
    iterate := read_items_of_reliable hplan .iterate (·.toList)
    scanPrefix := read_items_of_reliable hplan .scanPrefix (·.scanPrefix start)
    mem_iff := fun k v => by rw [htree]; exact Tree.mem_apply_iff _ k v
    eq_filter := hfound
    ascending := hkeys.sublist hsub
    nodup := m.tree.nodup_keys.sublist hsub
    stretch := m.tree.exists_stretch start }

/-- No key is above all those that begin with the greatest byte. -/
example :
    let us : List Update := [.insert [255, 255] [1], .insert [255] [2],
      .batch [.insert [255, 0] [3], .insert [254, 255] [4], .remove [255], .insert [255] [5]]]
    ((ofTree ∅).updates us).tree.scanPrefix [255] =
      [([255], [5]), ([255, 0], [3]), ([255, 255], [1])] := by
  decide

end Medium

end Mvcc
