import Mathlib.Data.List.Chain
import Mathlib.Tactic.SplitIfs
import Mvcc.Store.Update

/-!
# Linked chains

The chain of a record is linked if every version ends where the next one begins, numbers go up by
one, and the last version alone is open.

* `Chain.Linked`, with `linked_cons_cons` and `linked_singleton`.
* `Linked.visible?_eq`: a snapshot sees the last version that began in time.
* `Linked.filter_eq_drop`: dropping ended versions takes away a beginning of the chain.
* `Chain.extend`, `Linked.extend`: the next version takes over from the last one.
-/

namespace Mvcc

/-- `v` is the next version after `u`. -/
def Version.Precedes (u v : Version) : Prop :=
  v.number.toNat = u.number.toNat + 1 ∧ u.beginTs < v.beginTs ∧ u.endTs = some v.beginTs

/-- `u` stands before `v` in number and in time. -/
def Version.Before (u v : Version) : Prop := u.number < v.number ∧ u.beginTs < v.beginTs

instance : Trans Version.Before Version.Before Version.Before :=
  ⟨fun h h' => ⟨UInt64.lt_trans h.1 h'.1, UInt64.lt_trans h.2 h'.2⟩⟩

theorem Version.Precedes.before {u v : Version} (h : u.Precedes v) : u.Before v := by
  refine ⟨?_, h.2.1⟩
  rw [UInt64.lt_iff_toNat_lt, h.1]
  exact Nat.lt_succ_self _

/-- Whether a version ended at or before `ts`. -/
def Version.endedBy (v : Version) (ts : Timestamp) : Bool := v.endTs.any fun e => decide (e ≤ ts)

namespace Chain

/-- Every version is ended by the next one, and the last one is open. -/
structure Linked (c : Chain) : Prop where
  precedes : c.IsChain Version.Precedes
  open_last : ∀ v ∈ c.getLast?, v.endTs = none

theorem linked_nil : Linked [] := ⟨List.IsChain.nil, by simp⟩

theorem linked_singleton {u : Version} : Linked [u] ↔ u.endTs = none :=
  ⟨fun h => h.open_last u rfl, fun h => ⟨List.IsChain.singleton u, by simpa using h⟩⟩

theorem linked_cons_cons {u v : Version} {c : Chain} :
    Linked (u :: v :: c) ↔ u.Precedes v ∧ Linked (v :: c) := by
  constructor
  · rintro ⟨hp, ho⟩
    obtain ⟨huv, hp⟩ := List.isChain_cons_cons.1 hp
    exact ⟨huv, hp, fun w hw => ho w (by rwa [List.getLast?_cons_cons])⟩
  · rintro ⟨huv, hp, ho⟩
    exact ⟨List.isChain_cons_cons.2 ⟨huv, hp⟩, fun w hw => ho w (by
      rwa [List.getLast?_cons_cons] at hw)⟩

variable {c : Chain} {u v : Version}

theorem Linked.tail (h : Linked (u :: c)) : Linked c := by
  cases c with
  | nil => exact linked_nil
  | cons v c => exact (linked_cons_cons.1 h).2

theorem Linked.drop (h : Linked c) (n : Nat) : Linked (c.drop n) := by
  induction n generalizing c with
  | zero => exact h
  | succ n ih =>
    cases c with
    | nil => exact h
    | cons u c => exact ih h.tail

theorem Linked.pairwise (h : Linked c) : c.Pairwise Version.Before :=
  (h.precedes.imp fun _ _ => Version.Precedes.before).pairwise

theorem Linked.begin_lt (h : Linked (u :: c)) (hv : v ∈ c) : u.beginTs < v.beginTs :=
  ((List.pairwise_cons.1 h.pairwise).1 v hv).2

theorem Linked.exists_next (h : Linked c) (hu : u ∈ c) {e : Timestamp} (he : u.endTs = some e) :
    u.beginTs < e ∧ ∃ v ∈ c, v.beginTs = e := by
  induction c with
  | nil => cases hu
  | cons w c ih =>
    rcases List.mem_cons.1 hu with rfl | hu
    · obtain _ | ⟨v, c⟩ := c
      · rw [linked_singleton.1 h] at he
        cases he
      · obtain ⟨⟨-, hlt, hend⟩, -⟩ := linked_cons_cons.1 h
        obtain rfl : v.beginTs = e := by simpa [hend] using he
        exact ⟨hlt, v, by simp, rfl⟩
    · obtain ⟨hlt, v, hv, hve⟩ := ih h.tail hu
      exact ⟨hlt, v, List.mem_cons_of_mem _ hv, hve⟩

theorem latest?_eq_getLast? (h : ∀ v ∈ c.getLast?, v.endTs = none) : c.latest? = c.getLast? := by
  rw [latest?, last?]
  cases hl : c.getLast? with
  | none => rfl
  | some v => rw [Option.filter_some, if_pos ((v.isOpen_iff).2 (h v hl))]

theorem Linked.latest?_eq (h : Linked c) : c.latest? = c.getLast? := latest?_eq_getLast? h.open_last

/-! ## What snapshots see -/

theorem Linked.visible?_eq (h : Linked c) (ts : Timestamp) :
    c.visible? ts = (c.filter fun v => decide (v.beginTs ≤ ts)).getLast? := by
  induction c with
  | nil => rfl
  | cons u c ih =>
    rw [visible?, List.find?_cons, List.filter_cons]
    by_cases hu : u.beginTs ≤ ts
    · obtain _ | ⟨v, c⟩ := c
      · have hvis : u.visibleAt ts = true :=
          (u.visibleAt_iff ts).2 ⟨hu, by simp [linked_singleton.1 h]⟩
        simp [hvis, hu]
      · obtain ⟨⟨-, -, hend⟩, htail⟩ := linked_cons_cons.1 h
        by_cases hv : v.beginTs ≤ ts
        · -- a later version has taken over
          have hvis : u.visibleAt ts = false := by
            rw [Bool.eq_false_iff, Ne, u.visibleAt_iff, hend]
            simp [hv]
          rw [hvis, if_pos (by simpa using hu), List.filter_cons_of_pos (by simpa using hv),
            List.getLast?_cons_cons, ← List.filter_cons_of_pos (by simpa using hv)]
          exact ih htail
        · have hvis : u.visibleAt ts = true := by
            rw [u.visibleAt_iff, hend]
            simpa [hu] using UInt64.not_le.1 hv
          have hnone : ((v :: c).filter fun v => decide (v.beginTs ≤ ts)) = [] := by
            rw [List.filter_eq_nil_iff]
            intro w hw
            rcases List.mem_cons.1 hw with rfl | hw
            · simpa using hv
            · have := htail.begin_lt hw
              simp only [decide_eq_true_eq]
              grind
          rw [hvis, if_pos (by simpa using hu), hnone]
          rfl
    · have hvis : u.visibleAt ts = false := by
        rw [Bool.eq_false_iff, Ne, u.visibleAt_iff]
        exact fun hv => hu hv.1
      rw [hvis, if_neg (by simpa using hu)]
      exact ih h.tail

theorem Linked.length_visible (h : Linked c) (ts : Timestamp) :
    (c.filter (·.visibleAt ts)).length =
      if c.head?.any fun v => decide (v.beginTs ≤ ts) then 1 else 0 := by
  induction c with
  | nil => rfl
  | cons u c ih =>
    rw [List.filter_cons]
    obtain _ | ⟨v, c⟩ := c
    · have hiff : u.visibleAt ts = true ↔ u.beginTs ≤ ts := by
        simp [u.visibleAt_iff, linked_singleton.1 h]
      by_cases hu : u.beginTs ≤ ts
      · simp [hiff.2 hu, hu]
      · simp [mt hiff.1 hu, hu]
    · obtain ⟨⟨-, hlt, hend⟩, htail⟩ := linked_cons_cons.1 h
      have hiff : u.visibleAt ts = true ↔ u.beginTs ≤ ts ∧ ts < v.beginTs := by
        simp [u.visibleAt_iff, hend]
      have hlen := ih htail
      by_cases hv : v.beginTs ≤ ts
      · have hu : u.beginTs ≤ ts := by grind
        have hno : ¬ u.visibleAt ts = true := fun hvis => by
          have := (hiff.1 hvis).2
          grind
        rw [if_neg hno, hlen]
        simp [hv, hu]
      · rw [if_neg (by simpa using hv)] at hlen
        by_cases hu : u.beginTs ≤ ts
        · rw [if_pos (hiff.2 ⟨hu, UInt64.not_le.1 hv⟩), List.length_cons, hlen]
          simp [hu]
        · rw [if_neg (fun hvis => hu (hiff.1 hvis).1), hlen]
          simp [hu]

/-! ## Dropping ended versions -/

/-- The versions that ended are a beginning of the chain, and the open one stays. -/
theorem Linked.filter_eq_drop (h : Linked c) (ts : Timestamp) :
    ∃ n, (c.filter fun v => !v.endedBy ts) = c.drop n ∧ (c ≠ [] → n < c.length) ∧
      (0 < n → ∀ v ∈ (c.drop n).head?, v.beginTs ≤ ts) := by
  induction c with
  | nil => exact ⟨0, rfl, fun hne => absurd rfl hne, fun hpos => absurd hpos (Nat.lt_irrefl 0)⟩
  | cons u c ih =>
    obtain _ | ⟨v, c⟩ := c
    · refine ⟨0, ?_, by simp, fun hpos => absurd hpos (Nat.lt_irrefl 0)⟩
      simp [Version.endedBy, linked_singleton.1 h]
    · obtain ⟨⟨-, -, hend⟩, htail⟩ := linked_cons_cons.1 h
      by_cases hv : v.beginTs ≤ ts
      · obtain ⟨n, hn, hlen, hhead⟩ := ih htail
        refine ⟨n + 1, ?_, fun _ => ?_, fun _ => ?_⟩
        · rw [List.filter_cons_of_neg (by simp [Version.endedBy, hend, hv]), hn,
            List.drop_succ_cons]
        · exact Nat.succ_lt_succ (hlen (by simp))
        · rw [List.drop_succ_cons]
          rcases Nat.eq_zero_or_pos n with rfl | hpos
          · simpa using hv
          · exact hhead hpos
      · -- versions after `u` end later still
        refine ⟨0, ?_, by simp, fun hpos => absurd hpos (Nat.lt_irrefl 0)⟩
        rw [List.drop_zero, List.filter_eq_self]
        intro w hw
        have hkeep : ∀ e ∈ w.endTs, ts < e := by
          intro e he
          rcases List.mem_cons.1 hw with rfl | hw
          · obtain rfl : v.beginTs = e := by simpa [hend] using he
            exact UInt64.not_le.1 hv
          · have hwe := (htail.exists_next hw he).1
            rcases List.mem_cons.1 hw with rfl | hw
            · grind
            · have := htail.begin_lt hw
              grind
        cases he : w.endTs with
        | none => simp [Version.endedBy, he]
        | some e => simpa [Version.endedBy, he] using hkeep e he

/-! ## The next version -/

/-- `v` is an open version that may follow the last one. -/
structure Continues (c : Chain) (v : Version) : Prop where
  endTs_eq : v.endTs = none
  number_eq : ∀ u ∈ c.getLast?, v.number.toNat = u.number.toNat + 1
  begin_lt : ∀ u ∈ c.getLast?, u.beginTs < v.beginTs

/-- The versions to write when `v` takes over: the last one, ended, and `v`. -/
def takeover (c : Chain) (v : Version) : List Version :=
  (c.getLast?.map (·.closedAt v.beginTs)).toList ++ [v]

/-- The chain after `v` took over. -/
def extend (c : Chain) (v : Version) : Chain := c.dropLast ++ c.takeover v

@[simp] theorem extend_nil (v : Version) : extend [] v = [v] := rfl

@[simp] theorem extend_concat (c : Chain) (u v : Version) :
    extend (c ++ [u]) v = c ++ [u.closedAt v.beginTs, v] := by
  simp [extend, takeover]

theorem extend_ne_nil (c : Chain) (v : Version) : extend c v ≠ [] := by
  simp [extend, takeover]

theorem getLast?_extend (c : Chain) (v : Version) : (c.extend v).getLast? = some v := by
  rw [extend, takeover, ← List.append_assoc, List.getLast?_concat]

theorem Linked.extend (h : Linked c) (hv : c.Continues v) : Linked (c.extend v) := by
  rcases List.eq_nil_or_concat' c with rfl | ⟨c, u, rfl⟩
  · exact linked_singleton.2 hv.endTs_eq
  · rw [extend_concat]
    obtain ⟨hc, -, hcu⟩ := List.isChain_append.1 h.precedes
    refine ⟨List.isChain_append.2 ⟨hc, ?_, fun w hw x hx => ?_⟩, by simpa using hv.endTs_eq⟩
    · exact List.isChain_cons_cons.2 ⟨⟨hv.number_eq u (by simp), hv.begin_lt u (by simp), rfl⟩,
        List.IsChain.singleton v⟩
    · -- closing `u` leaves its number and begin as they were
      obtain rfl : u.closedAt v.beginTs = x := by simpa using hx
      exact hcu w hw u (by simp)

theorem Linked.succeed_eq (h : Linked c) (hv : c.Continues v) :
    succeed c.last? v = .ok (c.takeover v) := by
  rw [last?, takeover]
  cases hl : c.getLast? with
  | none => rfl
  | some u =>
    have hnum : ¬ v.number ≤ u.number := by
      rw [UInt64.le_iff_toNat_le, hv.number_eq u hl]
      omega
    have hbegin : ¬ v.beginTs ≤ u.beginTs := by
      rw [UInt64.not_le]
      exact hv.begin_lt u hl
    have hopen : u.isOpen = true := u.isOpen_iff.2 (h.open_last u hl)
    simp [succeed, hnum, hbegin, hopen]

end Chain

end Mvcc
