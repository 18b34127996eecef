import Mvcc.Proofs.Chains

/-!
# What store calls do

A call on a store either does what it is for or fails, and it fails only if a call on the medium
does. A failed call leaves tree and timestamp as they were.

* `Store.Called`, `Store.Served`, `Store.Kept`: calls were made; none of them failed; nothing but
  calls happened.
* `Chains.installation`, `Encodes.answers_installation`: what an install writes, or why it is refused.
* `exists_reading`, `exists_save`: the two ways in which a store works on its medium.
* `exists_install`, `exists_prune`: the changes that an engine makes, as changes of the chains.
-/

namespace Mvcc

theorem Chain.takeover_fits {c : Chain} {v : Version} (hc : ∀ u ∈ c, u.Fits) (hv : v.Fits) :
    ∀ w ∈ c.takeover v, w.Fits := by
  intro w hw
  rw [takeover, List.mem_append, Option.mem_toList, Option.map_eq_some_iff] at hw
  rcases hw with ⟨u, hu, rfl⟩ | hw
  · exact hc u (List.mem_of_getLast? hu)
  · rw [List.mem_singleton.1 hw]
    exact hv

/-- The versions to write when versions of records other than those in `seen` are installed. -/
def Chains.installation (a : Chains) :
    (seen : List RecordKey) → List Version → Except Refusal (List Version)
  | _, [] => .ok []
  | seen, v :: rest =>
    if v.key ∈ seen then .error (.repeatedKey v.key)
    else if v.isOpen then
      match Chain.succeed (a v.key).last? v with
      | .error e => .error e
      | .ok ws => (a.installation (v.key :: seen) rest).map (ws ++ ·)
    else .error (.installClosed v.key)

/-- What is installed where it may follow is what takes over. -/
theorem Chains.installation_of_continues {a : Chains} (ha : ∀ k, (a k).Linked) {vs : List Version}
    {seen : List RecordKey} (hnodup : (vs.map (·.key)).Nodup) (hseen : ∀ v ∈ vs, v.key ∉ seen)
    (hv : ∀ v ∈ vs, (a v.key).Continues v) :
    a.installation seen vs = .ok (vs.flatMap fun v => (a v.key).takeover v) := by
  induction vs generalizing seen with
  | nil => rfl
  | cons v vs ih =>
    obtain ⟨hnot, hrest⟩ := List.nodup_cons.1 hnodup
    have hcont := hv v List.mem_cons_self
    have hopen : v.isOpen = true := v.isOpen_iff.2 hcont.endTs_eq
    have hseen' : ∀ w ∈ vs, w.key ∉ v.key :: seen := by
      intro w hw hmem
      rcases List.mem_cons.1 hmem with he | hmem
      · exact hnot (List.mem_map.2 ⟨w, hw, he⟩)
      · exact hseen w (List.mem_cons_of_mem _ hw) hmem
    rw [installation, if_neg (hseen v List.mem_cons_self), if_pos hopen,
      (ha v.key).succeed_eq hcont, List.flatMap_cons]
    simp only [ih hrest hseen' fun w hw => hv w (List.mem_cons_of_mem _ hw)]
    rfl

theorem Probe.answers_ofRule {α : Type} {t : Tree} (x : Except Refusal α) :
    (Probe.ofRule x).Answers t (x.mapError .refused) := by
  cases x with
  | error e => exact Probe.answers_throw _
  | ok a => exact Probe.answers_pure a

theorem Tree.Encodes.answers_installation {t : Tree} {a : Chains} (h : t.Encodes a)
    {vs : List Version} (hv : ∀ v ∈ vs, v.Fits) (seen : List RecordKey) :
    (Probe.installation seen vs).Answers t
      (((a.installation seen vs).map (·.map Version.stored)).mapError .refused) := by
  induction vs generalizing seen with
  | nil => exact Probe.answers_pure _
  | cons v vs ih =>
    rw [Probe.installation, Chains.installation]
    by_cases hseen : v.key ∈ seen
    · rw [if_pos hseen, if_pos hseen]
      exact Probe.answers_throw _
    rw [if_neg hseen, if_neg hseen]
    cases v.isOpen with
    | false => exact Probe.answers_throw _
    | true =>
      refine (h.answers_last? (hv v List.mem_cons_self).1).bind ?_
      simp only [if_true]
      cases Chain.succeed (a v.key).last? v with
      | error e => exact (Probe.answers_throw _).bind_error _
      | ok ws =>
        refine (Probe.answers_pure ws).bind ?_
        have hrest := ih (fun w hw => hv w (List.mem_cons_of_mem _ hw)) (v.key :: seen)
        cases hmore : a.installation (v.key :: seen) vs with
        | error e =>
          rw [hmore] at hrest
          exact hrest.bind_error _
        | ok more =>
          rw [hmore] at hrest
          refine hrest.bind ?_
          show Probe.Answers _ t (.ok ((ws ++ more).map Version.stored))
          rw [List.map_append]
          exact Probe.answers_pure _

namespace Store

/-- Calls were made on the medium. -/
structure Called (s s' : Store) : Prop where
  plan_eq : s'.medium.plan = s.medium.plan
  le : s.medium.tally ≤ s'.medium.tally

/-- None of the calls made on the medium failed. -/
def Served (s s' : Store) : Prop := s.medium.plan.Serves s.medium.tally s'.medium.tally

instance (s s' : Store) : Decidable (s.Served s') :=
  inferInstanceAs (Decidable (s.medium.plan.Serves s.medium.tally s'.medium.tally))

/-- Calls were made, and nothing else happened. -/
structure Kept (s s' : Store) : Prop extends Called s s' where
  tree_eq : s'.tree = s.tree
  maxTs_eq : s'.maxTs = s.maxTs

variable {α : Type} {s s' s'' : Store} {a : Chains}

theorem Called.trans (h : s.Called s') (h' : s'.Called s'') : s.Called s'' :=
  ⟨h'.plan_eq.trans h.plan_eq, Tally.le_trans h.le h'.le⟩

theorem Kept.refl (s : Store) : s.Kept s := ⟨⟨rfl, Tally.le_refl _⟩, rfl, rfl⟩

theorem Kept.trans (h : s.Kept s') (h' : s'.Kept s'') : s.Kept s'' :=
  ⟨h.toCalled.trans h'.toCalled, h'.tree_eq.trans h.tree_eq, h'.maxTs_eq.trans h.maxTs_eq⟩

theorem Kept.encodes (h : s.Kept s') (ha : s.tree.Encodes a) : s'.tree.Encodes a :=
  h.tree_eq ▸ ha

theorem Served.second (h : s.Served s'') (h' : s.Called s') : s'.Served s'' := by
  have hserves := Plan.Serves.second h h'.le
  rwa [← h'.plan_eq] at hserves

theorem Called.not_served (h : s.Called s') (hs : ¬ s'.Served s'') : ¬ s.Served s'' :=
  fun hs' => hs (hs'.second h)

theorem Served.first (h : s.Served s'') (h' : s'.Called s'') : s.Served s' :=
  Plan.Serves.first h h'.le

theorem served_of_reliable (h : s.medium.plan = Plan.reliable) (s' : Store) : s.Served s' := by
  rw [Served, h]
  exact fun _ _ _ _ => rfl

theorem exists_reading {p : Probe α} {x : Except StoreError α} (h : p.Answers s.tree x) :
    ∃ r s', s.reading p = (r, s') ∧ s.Kept s' ∧ (r = x ∨ (∃ e, r = .error e) ∧ ¬ s.Served s') := by
  obtain ⟨hle, hr⟩ := h s.medium.plan s.medium.tally
  exact ⟨(s.reading p).1, (s.reading p).2, rfl, ⟨⟨rfl, hle⟩, rfl, rfl⟩, hr⟩

theorem reading_ofTree {t : Tree} {p : Probe α} {x : Except StoreError α} (h : p.Answers t x) :
    (({ medium := Medium.ofTree t } : Store).reading p).1 = x := by
  obtain ⟨r, s', heq, -, hr⟩ := exists_reading (s := { medium := Medium.ofTree t }) h
  rw [heq]
  exact hr.resolve_right fun hn => hn.2 fun _ _ _ _ => rfl

theorem exists_save (s : Store) (c : Call) (f : Tree → Tree) (ts : Timestamp) :
    ∃ r s', s.save (·.change c f) ts = (r, s') ∧ s.Called s' ∧
      (r = .ok () ∧ s'.tree = f s.tree ∧ s'.maxTs = max s.maxTs ts ∨
        (∃ e, r = .error e) ∧ ¬ s.Served s' ∧ s.Kept s') := by
  have hle := s.medium.tally.le_step c
  rw [save, Medium.change]
  cases hv : s.medium.plan c (s.medium.tally.get c) with
  | serve => exact ⟨_, _, rfl, ⟨rfl, hle⟩, Or.inl ⟨rfl, rfl, rfl⟩⟩
  | spoil place e => exact ⟨_, _, rfl, ⟨rfl, hle⟩, Or.inl ⟨rfl, rfl, rfl⟩⟩
  | fail e =>
    refine ⟨_, _, rfl, ⟨rfl, hle⟩, Or.inr ⟨⟨e, rfl⟩, fun hs => ?_, ⟨rfl, hle⟩, rfl, rfl⟩⟩
    have hserve := Plan.Serves.step hs
    rw [hv] at hserve
    cases hserve

theorem exists_flush (s : Store) :
    ∃ r s', s.flush = (r, s') ∧ s.Kept s' ∧
      (r = .ok () ∨ (∃ e, r = .error e) ∧ ¬ s.Served s') := by
  obtain ⟨r, s', heq, hcalled, hr⟩ := exists_save s .flush id 0
  refine ⟨r, s', heq, ?_⟩
  rcases hr with ⟨hr, htree, hmax⟩ | ⟨hr, hserved, hkept⟩
  · refine ⟨⟨hcalled, htree, hmax.trans ?_⟩, Or.inl hr⟩
    show (if s.maxTs ≤ 0 then 0 else s.maxTs) = s.maxTs
    split_ifs with hle
    · exact (UInt64.le_zero_iff.1 hle).symm
    · rfl
  · exact ⟨hkept, Or.inr ⟨hr, hserved⟩⟩

theorem exists_install (h : s.tree.Encodes a) (ha : ∀ k, (a k).Linked) {vs : List Version}
    (hnodup : (vs.map (·.key)).Nodup) (hv : ∀ v ∈ vs, v.Fits ∧ (a v.key).Continues v) :
    ∃ r s', s.install vs = (r, s') ∧ s.Called s' ∧
      (r = .ok () ∧ s'.tree.Encodes (a.install vs) ∨
        (∃ e, r = .error e) ∧ ¬ s.Served s' ∧ s.Kept s') := by
  have hchains := Chains.foldl_put_takeovers h.key_eq h.ascending hnodup fun v hm => (hv v hm).2
  have hfits : ∀ w ∈ vs.flatMap fun v => (a v.key).takeover v, w.Fits := by
    intro w hw
    obtain ⟨v, hm, hw⟩ := List.mem_flatMap.1 hw
    exact Chain.takeover_fits (h.fits v.key) (hv v hm).1 w hw
  have hencodes := h.applyStored hfits
  rw [hchains] at hencodes
  have hseen : ∀ v ∈ vs, v.key ∉ ([] : List RecordKey) := by simp
  have hans : (Probe.installation [] vs).Answers s.tree
      (.ok ((vs.flatMap fun v => (a v.key).takeover v).map Version.stored)) := by
    have hinstall := h.answers_installation (fun v hm => (hv v hm).1) []
    rwa [Chains.installation_of_continues ha hnodup hseen fun v hm => (hv v hm).2] at hinstall
  obtain ⟨r, s', heq, hkept, hr⟩ := exists_reading hans
  rw [install, heq]
  rcases hr with rfl | ⟨⟨e, rfl⟩, hs⟩
  · cases hb : (vs.flatMap fun v => (a v.key).takeover v).map Version.stored with
    | nil =>
      rw [hb] at hencodes
      exact ⟨_, s', rfl, hkept.toCalled, Or.inl ⟨rfl, hkept.encodes hencodes⟩⟩
    | cons edit edits =>
      obtain ⟨r, s'', heq', hcalled, hr⟩ := exists_save s' .applyBatch
        (·.apply (edit :: edits)) ((vs.map (·.beginTs)).foldl max 0)
      refine ⟨r, s'', heq', hkept.toCalled.trans hcalled, ?_⟩
      rcases hr with ⟨hr, htree, -⟩ | ⟨hr, hs, hkept'⟩
      · refine Or.inl ⟨hr, ?_⟩
        rw [htree, hkept.tree_eq, ← hb]
        exact hencodes
      · exact Or.inr ⟨hr, hkept.toCalled.not_served hs, hkept.trans hkept'⟩
  · exact ⟨_, s', rfl, hkept.toCalled, Or.inr ⟨⟨e, rfl⟩, hs, hkept⟩⟩

theorem exists_prune (h : s.tree.Encodes a) (ts : Timestamp) :
    ∃ r s', s.prune ts = (r, s') ∧ s.Called s' ∧
      ((∃ vs, a.Lists vs ∧ r = .ok (vs.countP (·.endedBy ts))) ∧
          s'.tree.Encodes (a.keep fun v => !v.endedBy ts) ∨
        (∃ e, r = .error e) ∧ ¬ s.Served s' ∧ s.Kept s') := by
  obtain ⟨vs, hlists, hans, hplaces⟩ := h.answers_ended ts
  have hencodes := h.applyRemove hplaces
  have hcount : ((vs.filter (·.endedBy ts)).map (·.entry.1)).length = vs.countP (·.endedBy ts) := by
    rw [List.length_map, List.countP_eq_length_filter]
  generalize (vs.filter (·.endedBy ts)).map (·.entry.1) = places at hans hencodes hcount
  obtain ⟨r, s', heq, hkept, hr⟩ := exists_reading hans
  rw [prune, heq]
  rcases hr with rfl | ⟨⟨e, rfl⟩, hs⟩
  · cases places with
    | nil =>
      exact ⟨_, s', rfl, hkept.toCalled,
        Or.inl ⟨⟨vs, hlists, hcount ▸ rfl⟩, hkept.encodes hencodes⟩⟩
    | cons place places =>
      obtain ⟨r, s'', heq', hcalled, hr⟩ := exists_save s' .applyBatch
        (·.apply ((place :: places).map .remove)) 0
      have hsave : s'.save (·.applyBatch ((place :: places).map .remove)) 0 = (r, s'') := heq'
      simp only [hsave]
      rcases hr with ⟨rfl, htree, -⟩ | ⟨⟨e, rfl⟩, hs, hkept'⟩
      · refine ⟨_, s'', rfl, hkept.toCalled.trans hcalled,
          Or.inl ⟨⟨vs, hlists, hcount ▸ rfl⟩, ?_⟩⟩
        rw [htree, hkept.tree_eq]
        exact hencodes
      · exact ⟨_, s'', rfl, hkept.toCalled.trans hcalled,
          Or.inr ⟨⟨e, rfl⟩, hkept.toCalled.not_served hs, hkept.trans hkept'⟩⟩
  · exact ⟨_, s', rfl, hkept.toCalled, Or.inr ⟨⟨e, rfl⟩, hs, hkept⟩⟩

end Store

end Mvcc
