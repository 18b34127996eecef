import Mathlib.Data.List.Sort
import Mvcc.Proofs.Chronicle

/-!
# Serializability

The transactions that committed, one after the other in the order of their places, do to a plain map
what they did to the engine: every read finds what it found, and the map ends up with what the open
versions hold.

* `Commit.InOrder`: transactions in the order of their places.
* `Chronicle.after_eq_snapshot`: up to a place the plain map is the snapshot at that place.
* `Engine.Serialized`, `Fresh.serializable`: the result for every run of an engine without versions.
-/

namespace Mvcc

open Session

namespace Commit

/-- The transactions in the order of their places. -/
structure InOrder (order commits : List Commit) : Prop where
  perm : order.Perm commits
  ascending : order.Pairwise fun c c' => c.place < c'.place

variable {order commits : List Commit} {k : RecordKey}

theorem exists_inOrder (h : commits.Pairwise fun c c' => c.place ≠ c'.place) :
    ∃ order, InOrder order commits := by
  let le : Commit → Commit → Bool := fun c c' => decide (c.place ≤ c'.place)
  have hperm : (commits.mergeSort le).Perm commits := List.mergeSort_perm _ _
  have hsorted : (commits.mergeSort le).Pairwise fun c c' => le c c' = true := by
    refine List.pairwise_mergeSort (fun c d e hcd hde => ?_) (fun c d => ?_) commits
    · exact decide_eq_true (UInt64.le_trans (of_decide_eq_true hcd) (of_decide_eq_true hde))
    · rcases UInt64.le_total c.place d.place with hle | hle
      · simp [le, hle]
      · simp [le, hle]
  have hne := (hperm.pairwise_iff fun {c d} hcd => Ne.symm hcd).2 h
  refine ⟨commits.mergeSort le, hperm, (hsorted.and hne).imp fun {c d} hcd => ?_⟩
  have hle : c.place ≤ d.place := of_decide_eq_true hcd.1
  have hne : c.place ≠ d.place := hcd.2
  grind

theorem mark?_eq_some {c : Commit} {w : Timestamp × Option Payload} (h : c.mark? k = some w) :
    c.left? k = some w.2 ∧ c.place = w.1 := by
  obtain ⟨p, hp, rfl⟩ := Option.map_eq_some_iff.1 h
  exact ⟨hp, if_pos ((wrote_iff c).2 ⟨k, by simp [hp]⟩)⟩

theorem InOrder.pairwise_mark? (h : InOrder order commits) (k : RecordKey) :
    (order.filterMap (·.mark? k)).Pairwise fun w w' => w.1 < w'.1 := by
  refine List.pairwise_filterMap.2 (h.ascending.imp fun {c d} hlt w hw w' hw' => ?_)
  rw [← (mark?_eq_some hw).2, ← (mark?_eq_some hw').2]
  exact hlt

theorem lastPut?_flatMap (order : List Commit) (k : RecordKey) :
    lastPut? (order.flatMap (·.deeds)) k = (order.filterMap (·.mark? k)).getLast?.map (·.2) := by
  induction order using List.reverseRecOn with
  | nil => rfl
  | append_singleton order c ih =>
    rw [List.flatMap_append, List.flatMap_singleton, lastPut?, List.filterMap_append,
      List.getLast?_append, List.filterMap_append, List.getLast?_append]
    rw [lastPut?] at ih
    rw [ih]
    show (c.left? k).or _ = _
    cases hleft : c.left? k with
    | none => simp [mark?, hleft]
    | some p => simp [mark?, hleft]

end Commit

namespace Trace

open Commit

variable {tr : Trace} {s : Session} {a : Chains} {order : List Commit}

theorem Chronicle.filterMap_mark?_eq (h : tr.Chronicle s a) (ho : InOrder order tr.commits)
    (k : RecordKey) : order.filterMap (·.mark? k) = tr.writers k := by
  refine List.Perm.eq_of_pairwise (fun w w' _ _ hlt hlt' => ?_) (ho.pairwise_mark? k)
    (h.ordered.ascending k) (ho.perm.filterMap _)
  exact absurd hlt' (UInt64.not_lt.2 (UInt64.le_of_lt hlt))

/-- Up to the place of a transaction the plain map is the snapshot at that place. -/
theorem Chronicle.after_eq_snapshot (h : tr.Chronicle s a) {first rest : List Commit} {c : Commit}
    (ho : InOrder (first ++ c :: rest) tr.commits) :
    Contents.after (fun _ => none) (first.flatMap (·.deeds)) = tr.snapshot c.place := by
  funext k
  -- of the writers of a key, those below the place are the ones in `first`
  obtain ⟨-, hafter, hbefore⟩ := List.pairwise_append.1 ho.ascending
  have hfirst : (first.filterMap (·.mark? k)).filter (fun w => decide (w.1 < c.place)) =
      first.filterMap (·.mark? k) := by
    refine List.filter_eq_self.2 fun w hw => ?_
    obtain ⟨d, hd, hmark⟩ := List.mem_filterMap.1 hw
    rw [← (mark?_eq_some hmark).2]
    exact decide_eq_true (hbefore d hd c List.mem_cons_self)
  have hrest : ((c :: rest).filterMap (·.mark? k)).filter (fun w => decide (w.1 < c.place)) =
      [] := by
    refine List.filter_eq_nil_iff.2 fun w hw => ?_
    obtain ⟨d, hd, hmark⟩ := List.mem_filterMap.1 hw
    rw [← (mark?_eq_some hmark).2, decide_eq_true_eq, UInt64.not_lt]
    rcases List.mem_cons.1 hd with rfl | hd
    · exact UInt64.le_refl _
    · exact UInt64.le_of_lt ((List.pairwise_cons.1 hafter).1 d hd)
  rw [snapshot_eq _ (h.ordered.ascending k), ← h.filterMap_mark?_eq ho, List.filterMap_append,
    List.filter_append, hfirst, hrest, List.append_nil, Contents.after_apply, lastPut?_flatMap]
  cases (first.filterMap (·.mark? k)).getLast? <;> rfl

theorem serves_flatMap {m : Contents} {order : List Commit}
    (h : ∀ first c rest, order = first ++ c :: rest →
      (m.after (first.flatMap (·.deeds))).Serves c.deeds) :
    m.Serves (order.flatMap (·.deeds)) := by
  induction order using List.reverseRecOn with
  | nil => trivial
  | append_singleton order c ih =>
    rw [List.flatMap_append, List.flatMap_singleton, Contents.serves_append]
    refine ⟨ih fun first d rest he => ?_, h order c [] rfl⟩
    exact h first d (rest ++ [c]) (by rw [he]; simp)

/-- In the order of places, a plain map serves all that was read. -/
theorem Chronicle.serves (h : tr.Chronicle s a) (ho : InOrder order tr.commits) :
    Contents.Serves (fun _ => none) (order.flatMap (·.deeds)) := by
  refine serves_flatMap fun first c rest he => ?_
  subst he
  rw [h.after_eq_snapshot ho]
  exact h.consistent.commits c (ho.perm.mem_iff.1 (by simp))

theorem Chronicle.after_eq_latest (h : tr.Chronicle s a) (ho : InOrder order tr.commits)
    (k : RecordKey) :
    Contents.after (fun _ => none) (order.flatMap (·.deeds)) k =
      (a k).latest?.bind (·.payload) := by
  rw [Contents.after_apply, lastPut?_flatMap, h.filterMap_mark?_eq ho,
    (h.stands.sound.linked k).latest?_eq, ← (h.stored k).getLast?_eq]
  cases (a k).getLast? <;> rfl

end Trace

namespace Engine

/-- The transactions that committed in a run do the same to a plain map, one after the other in the
order of their places. -/
structure Serialized (g : Engine) (ops : List Op) (order : List Commit) : Prop where
  inOrder : Commit.InOrder order (g.trace ops).commits
  serves : Contents.Serves (fun _ => none) (order.flatMap (·.deeds))
  latest : ∀ k : RecordKey, k.Fits → ∃ r s', (g.after ops).engine.store.latest? k = (r, s') ∧
    ((∃ v, r = .ok v ∧
        Contents.after (fun _ => none) (order.flatMap (·.deeds)) k = v.bind (·.payload)) ∨
      (∃ e, r = .error e) ∧ ¬ (g.after ops).engine.store.Served s')

/-- Whatever the interleaving and whichever calls fail, what committed transactions read and what
is left in the store is what comes of doing them one after the other. -/
theorem Fresh.serializable {g : Engine} (h : g.Fresh) (ops : List Op) (hops : ∀ op ∈ ops, op.Fits) :
    ∃ order, g.Serialized ops order := by
  obtain ⟨a, ha⟩ := h.chronicle ops hops
  obtain ⟨order, ho⟩ := Commit.exists_inOrder ha.ordered.places
  refine ⟨order, ho, ha.serves ho, fun k hk => ?_⟩
  obtain ⟨r, s', heq, -, hr⟩ := Store.exists_reading (ha.stands.encodes.answers_latest? hk)
  refine ⟨r, s', heq, hr.imp_left fun hr => ?_⟩
  exact ⟨(a k).latest?, hr, ha.after_eq_latest ho k⟩

/-- Of two transactions that committed, the one without writes comes first. -/
theorem serializable_overlap :
    inMemory.Fresh ∧ (∀ op ∈ Op.overlap, op.Fits) ∧
      (∃ order, inMemory.Serialized Op.overlap order) ∧
      (inMemory.trace Op.overlap).commits.map (·.place) = [3, 2] :=
  ⟨fresh_inMemory, Op.fits_overlap, fresh_inMemory.serializable _ Op.fits_overlap,
    by decide +kernel⟩

end Engine

end Mvcc
