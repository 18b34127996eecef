import Mathlib.Tactic.SplitIfs
import Mvcc.Record.Version

/-!
# The greatest of some timestamps

* `Timestamp.max_le_iff`, `max_cases`, `le_max_left`, `le_max_right`: the greater of two.
* `Timestamp.foldl_max_le_iff`, `le_foldl_max`, `foldl_max_eq`, `foldl_max_mem`: the greatest of a
  list.
-/

namespace Mvcc

namespace Timestamp

theorem max_le_iff (ts ts' x : Timestamp) : max ts ts' ≤ x ↔ ts ≤ x ∧ ts' ≤ x := by
  show (if ts ≤ ts' then ts' else ts) ≤ x ↔ _
  split_ifs with h
  · exact ⟨fun hx => ⟨UInt64.le_trans h hx, hx⟩, fun hx => hx.2⟩
  · exact ⟨fun hx => ⟨hx, by grind⟩, fun hx => hx.1⟩

theorem max_cases (ts ts' : Timestamp) : max ts ts' = ts ∨ max ts ts' = ts' := by
  show (if ts ≤ ts' then ts' else ts) = ts ∨ (if ts ≤ ts' then ts' else ts) = ts'
  split_ifs
  · exact Or.inr rfl
  · exact Or.inl rfl

theorem le_max_left (ts ts' : Timestamp) : ts ≤ max ts ts' :=
  ((max_le_iff ts ts' _).1 (UInt64.le_refl _)).1

theorem le_max_right (ts ts' : Timestamp) : ts' ≤ max ts ts' :=
  ((max_le_iff ts ts' _).1 (UInt64.le_refl _)).2

theorem foldl_max_le_iff {α : Type} (f : α → Timestamp) (l : List α) (start x : Timestamp) :
    l.foldl (fun ts e => max ts (f e)) start ≤ x ↔ start ≤ x ∧ ∀ e ∈ l, f e ≤ x := by
  induction l generalizing start with
  | nil => simp
  | cons e l ih =>
    rw [List.foldl_cons, ih, max_le_iff, List.forall_mem_cons, and_assoc]

theorem eq_of_le_iff {ts ts' : Timestamp} (h : ∀ x, ts ≤ x ↔ ts' ≤ x) : ts = ts' :=
  UInt64.le_antisymm ((h ts').2 (UInt64.le_refl _)) ((h ts).1 (UInt64.le_refl _))

theorem le_foldl_max {l : List Timestamp} {ts : Timestamp} (h : ts ∈ l) (start : Timestamp) :
    ts ≤ l.foldl max start :=
  ((foldl_max_le_iff id l start _).1 (UInt64.le_refl _)).2 ts h

theorem foldl_max_eq (l : List Timestamp) (start : Timestamp) :
    l.foldl max start = max start (l.foldl max 0) := by
  refine eq_of_le_iff fun x => ?_
  have hstart := foldl_max_le_iff id l start x
  have hzero := foldl_max_le_iff id l 0 x
  rw [max_le_iff]
  exact hstart.trans (and_congr_right fun _ => (hzero.trans (and_iff_right UInt64.zero_le)).symm)

theorem foldl_max_mem {l : List Timestamp} (h : l ≠ []) : l.foldl max 0 ∈ l := by
  have hmem : ∀ start, l.foldl max start ∈ start :: l := by
    clear h
    induction l with
    | nil => exact fun start => List.mem_cons_self
    | cons ts l ih =>
      intro start
      rw [List.foldl_cons]
      rcases List.mem_cons.1 (ih (max start ts)) with he | hmem
      · rw [he]
        rcases max_cases start ts with he | he <;> simp [he]
      · exact List.mem_cons_of_mem _ (List.mem_cons_of_mem _ hmem)
  rcases List.mem_cons.1 (hmem 0) with he | hmem
  · -- all of them are zero
    obtain ⟨ts, hts⟩ := List.exists_mem_of_ne_nil l h
    have hzero := le_foldl_max hts 0
    rw [he] at hzero ⊢
    exact UInt64.le_zero_iff.1 hzero ▸ hts
  · exact hmem

end Timestamp

end Mvcc
