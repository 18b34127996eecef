import Mvcc.Proofs.Catalog
import Mvcc.Proofs.Steps

/-!
# What a failed request leaves behind

A store reads and decides before it changes anything, and then makes one change, which takes place
as a whole or not at all. So a request that fails leaves every version and the greatest timestamp as
they were, whatever it asks for and whichever part of it failed: the tree may be damaged, and any
call on it may fail.

* `Store.Intact`: what is true of the outcome of a request, with a rule for each way to come to one.
* `Store.unmoved_of_error`: the result for every request.
-/

namespace Mvcc.Store

variable {α β : Type} {s s₁ : Store}

open Request (answered)

/-- If this outcome is an error, the versions and the greatest timestamp are those of the store
before. -/
def Intact (s : Store) (y : Except StoreError α × Store) : Prop :=
  ∀ e, y.1 = .error e → s.Unmoved y.2

theorem intact_of_unmoved {y : Except StoreError α × Store} (h : s.Unmoved y.2) : s.Intact y :=
  fun _ _ => h

theorem intact_save (hread : s.Unmoved s₁) (c : Call) (f : Tree → Tree) (ts : Timestamp) :
    s.Intact (s₁.save (·.change c f) ts) := by
  intro e he
  rcases s₁.save_change c f ts with ⟨hok, -, -⟩ | ⟨-, hkept⟩
  · rw [hok] at he
    cases he
  · exact hread.trans hkept

theorem Intact.answered {y : Except StoreError α × Store} (h : s.Intact y) (answer : α → Response) :
    s.Intact (answered answer y) := by
  intro e he
  obtain ⟨_ | _, s'⟩ := y
  · exact h _ rfl
  · cases he

/-! ## Requests that change a store -/

theorem intact_append (s : Store) (v : Version) : s.Intact (s.append v) := by
  have hread := s.unmoved_reading (Probe.checkAppend v)
  rw [append]
  rcases hr : s.reading (Probe.checkAppend v) with ⟨_ | _, s₁⟩
  all_goals rw [hr] at hread
  · exact intact_of_unmoved hread
  · exact intact_save hread .insert (·.insert _ _) _

theorem intact_close (s : Store) (k : RecordKey) (ts : Timestamp) : s.Intact (s.close k ts) := by
  have hread := s.unmoved_reading (do Probe.ofRule (Chain.closing (← Probe.latest? k) k ts))
  rw [close]
  rcases hr : s.reading (do Probe.ofRule (Chain.closing (← Probe.latest? k) k ts)) with ⟨_ | _, s₁⟩
  all_goals rw [hr] at hread
  · exact intact_of_unmoved hread
  · exact intact_save hread .insert (·.insert _ _) _

theorem intact_install (s : Store) (vs : List Version) : s.Intact (s.install vs) := by
  have hread := s.unmoved_reading (Probe.installation [] vs)
  rw [install]
  rcases hr : s.reading (Probe.installation [] vs) with ⟨_ | _ | ⟨edit, edits⟩, s₁⟩
  all_goals rw [hr] at hread
  · exact intact_of_unmoved hread
  · exact intact_of_unmoved hread
  · exact intact_save hread .applyBatch (·.apply _) _

theorem intact_prune (s : Store) (ts : Timestamp) : s.Intact (s.prune ts) := by
  have hread := s.unmoved_reading (Probe.ended ts)
  rw [prune]
  rcases hr : s.reading (Probe.ended ts) with ⟨_ | _ | ⟨place, places⟩, s₁⟩
  all_goals rw [hr] at hread
  · exact intact_of_unmoved hread
  · exact intact_of_unmoved hread
  · have hsave : s.Intact (s₁.save (·.applyBatch ((place :: places).map .remove)) 0) :=
      intact_save hread .applyBatch (·.apply _) 0
    rcases hs : s₁.save (·.applyBatch ((place :: places).map .remove)) 0 with ⟨_ | _, s₂⟩
    all_goals
      rw [hs] at hsave
      simp only [hs]
    · exact fun e _ => hsave _ rfl
    · intro e he
      cases he

/-! ## Every request -/

/-- A request that fails changes nothing. -/
theorem unmoved_of_error {q : Request} {e : StoreError} (h : (s.serve q).1 = .error e) :
    s.Unmoved (s.serve q).2 := by
  have hintact : s.Intact (s.serve q) := by
    cases q with
    | append v => exact (s.intact_append v).answered _
    | close k ts => exact (s.intact_close k ts).answered _
    | install vs => exact (s.intact_install vs).answered _
    | prune ts => exact (s.intact_prune ts).answered _
    | visible k ts => exact (intact_of_unmoved (s.unmoved_reading (Probe.visible? k ts))).answered _
    | latest k => exact (intact_of_unmoved (s.unmoved_reading (Probe.latest? k))).answered _
    | chain k => exact (intact_of_unmoved (s.unmoved_reading (Probe.chain k))).answered _
  exact hintact e h

/-- The first record could be changed; what is stored of the second one is damaged. -/
theorem unmoved_of_error_second :
    let k₁ : RecordKey := ⟨"t", .int 1⟩
    let k₂ : RecordKey := ⟨"t", .int 2⟩
    let ended : Version :=
      { key := k₁, number := 0, payload := some [7], beginTs := 2, endTs := some 3 }
    let next (k : RecordKey) : Version := { key := k, number := 1, payload := none, beginTs := 4 }
    let t : Tree := ((∅ : Tree).insert (Layout.location k₁ 0) (Layout.encode ended)).insert
      (Layout.location k₂ 0) [1, 2, 3, 4, 5]
    let s : Store := { medium := Medium.ofTree t, maxTs := 3 }
    (s.serve (.install [next k₁, next k₂])).1 = .error (.damaged .checksum) ∧
      s.Unmoved (s.serve (.install [next k₁, next k₂])).2 ∧
      (s.serve (.prune 9)).1 = .error (.damaged .checksum) ∧ s.Unmoved (s.serve (.prune 9)).2 ∧
      (s.serve (.install [next k₁])).1 = .ok .done := by
  intro k₁ k₂ ended next t s
  have hinstall : (s.serve (.install [next k₁, next k₂])).1 = .error (.damaged .checksum) := by
    decide +kernel
  have hprune : (s.serve (.prune 9)).1 = .error (.damaged .checksum) := by decide +kernel
  exact ⟨hinstall, unmoved_of_error hinstall, hprune, unmoved_of_error hprune, by decide +kernel⟩

end Mvcc.Store
