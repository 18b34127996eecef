import Mvcc.Proofs.Validation

/-!
# Sound chains

Numbers go up by one along a linked chain and begins at least as fast, so a number that starts below
its begin stays there and never runs out.

* `Chains.Sound`, kept by commits (`Sound.commit`) and by dropping ended versions (`Sound.keep`).
* `Chains.commit`: the chains after the writes of a transaction took over, with `commit_apply`.
* `Chains.numbered`: the writes with the numbers of their versions.
* `Sound.continues_draft`: the version that a commit makes of a write may follow.
-/

namespace Mvcc

theorem Chain.mem_extend {c : Chain} {v w : Version} (h : w ∈ c.extend v) :
    w = v ∨ ∃ u ∈ c, w.number = u.number ∧ w.beginTs = u.beginTs := by
  rcases List.eq_nil_or_concat' c with rfl | ⟨c, u, rfl⟩
  · exact Or.inl (List.mem_singleton.1 h)
  · rw [extend_concat, List.mem_append] at h
    rcases h with h | h
    · exact Or.inr ⟨w, by simp [h], rfl, rfl⟩
    · rcases List.mem_cons.1 h with rfl | h
      · exact Or.inr ⟨u, by simp, rfl, rfl⟩
      · exact Or.inl (List.mem_singleton.1 h)

namespace Chains

/-- Linked chains whose numbers stay below the begins. -/
structure Sound (a : Chains) : Prop where
  linked : ∀ k, (a k).Linked
  number_lt : ∀ k, ∀ v ∈ a k, v.number < v.beginTs

/-- The versions that a commit at `ts` makes of its writes. -/
def versions (a : Chains) (ws : WriteSet) (ts : Timestamp) : List Version :=
  (ws.mapValues a.draft).toList.map fun e => e.2.version e.1 ts

/-- The writes with the numbers of their versions. -/
def numbered (a : Chains) (ws : WriteSet) : WriteSet :=
  (ws.mapValues a.draft).mapValues fun _ d => d.toWrite

/-- The chains after a commit at `ts`. -/
def commit (a : Chains) (ws : WriteSet) (ts : Timestamp) : Chains := a.install (a.versions ws ts)

variable {a : Chains} {ws : WriteSet} {ts : Timestamp} {k : RecordKey} {w : Write}

theorem mem_versions {v : Version} :
    v ∈ a.versions ws ts ↔ ∃ k w, ws.get? k = some w ∧ (a.draft k w).version k ts = v := by
  simp only [versions, OrderedMap.mapValues, List.map_map, List.mem_map, Prod.exists,
    OrderedMap.mem_toList_iff, Function.comp_apply]

theorem get?_numbered (a : Chains) (ws : WriteSet) (k : RecordKey) :
    (a.numbered ws).get? k = (ws.get? k).map fun w => (a.draft k w).toWrite := by
  rw [numbered, OrderedMap.get?_mapValues, OrderedMap.get?_mapValues, Option.map_map]
  rfl

theorem numbered_of_isEmpty (a : Chains) {ws : WriteSet} (h : ws.isEmpty = true) :
    a.numbered ws = ws := by
  apply OrderedMap.ext
  have hnil : ws.toList = [] := List.isEmpty_iff.1 h
  show (ws.toList.map _).map _ = ws.toList
  rw [hnil]
  rfl

theorem keys_versions_nodup (a : Chains) (ws : WriteSet) (ts : Timestamp) :
    ((a.versions ws ts).map (·.key)).Nodup := by
  rw [versions, List.map_map]
  refine List.pairwise_map.2 ((ws.mapValues a.draft).ascending.imp fun {e e'} hlt he => ?_)
  have he' : e.1 = e'.1 := he
  rw [he'] at hlt
  have hself : compare e'.1 e'.1 = .eq := Std.ReflCmp.compare_self
  cases hself.symm.trans hlt

theorem commit_apply (a : Chains) (ws : WriteSet) (ts : Timestamp) (k : RecordKey) :
    a.commit ws ts k = match ws.get? k with
      | none => a k
      | some w => (a k).extend ((a.draft k w).version k ts) := by
  have hfind : (a.versions ws ts).find? (fun v => decide (v.key = k)) =
      (ws.get? k).map fun w => (a.draft k w).version k ts := by
    cases hw : ws.get? k with
    | none =>
      refine List.find?_eq_none.2 fun v hv hk => ?_
      obtain ⟨k', w, hw', rfl⟩ := mem_versions.1 hv
      obtain rfl : k' = k := of_decide_eq_true hk
      rw [hw] at hw'
      cases hw'
    | some w =>
      have hmem : (a.draft k w).version k ts ∈ a.versions ws ts := mem_versions.2 ⟨k, w, hw, rfl⟩
      cases hv : (a.versions ws ts).find? fun v => decide (v.key = k) with
      | none => exact absurd (decide_eq_true (rfl : k = k)) (List.find?_eq_none.1 hv _ hmem)
      | some v =>
        -- keys are told apart, so it is the same version
        have hk : v.key = k := by simpa using List.find?_some hv
        obtain ⟨k', w', hw', rfl⟩ := mem_versions.1 (List.mem_of_find?_eq_some hv)
        obtain rfl : k' = k := hk
        rw [hw] at hw'
        cases hw'
        rfl
  rw [commit, install, hfind]
  cases ws.get? k <;> rfl

theorem sound_empty : Sound fun _ => [] := ⟨fun _ => Chain.linked_nil, by simp⟩

theorem Sound.continues_draft (h : a.Sound) (w : Write) (hpos : 0 < ts)
    (hlast : ∀ v ∈ (a k).getLast?, v.beginTs < ts) :
    (a k).Continues ((a.draft k w).version k ts) ∧ (a.draft k w).number < ts := by
  have hlatest := (h.linked k).latest?_eq
  cases hl : (a k).getLast? with
  | none =>
    have hnumber : (a.draft k w).number = 0 := by simp [draft, hlatest, hl]
    exact ⟨⟨rfl, by simp [hl], by simp [hl]⟩, hnumber ▸ hpos⟩
  | some v =>
    have hnumber : (a.draft k w).number = v.number + 1 := by simp [draft, hlatest, hl]
    have hbegin : v.beginTs < ts := hlast v hl
    have hlt := h.number_lt k v (List.mem_of_getLast? hl)
    rw [UInt64.lt_iff_toNat_lt] at hlt hbegin
    have hsucc : (v.number + 1).toNat = v.number.toNat + 1 := by
      have hsize := ts.toNat_lt
      rw [UInt64.toNat_add]
      show (v.number.toNat + 1) % 2 ^ 64 = _
      omega
    refine ⟨⟨rfl, fun u hu => ?_, hlast⟩, ?_⟩
    · rw [hl] at hu
      cases hu
      show (a.draft k w).number.toNat = _
      rw [hnumber, hsucc]
    · rw [hnumber, UInt64.lt_iff_toNat_lt, hsucc]
      omega

theorem Sound.commit (h : a.Sound) (hpos : 0 < ts)
    (hlast : ∀ k w, ws.get? k = some w → ∀ v ∈ (a k).getLast?, v.beginTs < ts) :
    (a.commit ws ts).Sound where
  linked k := by
    rw [commit_apply]
    cases hw : ws.get? k with
    | none => exact h.linked k
    | some w => exact (h.linked k).extend (h.continues_draft w hpos (hlast k w hw)).1
  number_lt k v hv := by
    rw [commit_apply] at hv
    cases hw : ws.get? k with
    | none =>
      rw [hw] at hv
      exact h.number_lt k v hv
    | some w =>
      rw [hw] at hv
      rcases Chain.mem_extend hv with rfl | ⟨u, hu, hnumber, hbegin⟩
      · exact (h.continues_draft w hpos (hlast k w hw)).2
      · rw [hnumber, hbegin]
        exact h.number_lt k u hu

theorem Sound.keep (h : a.Sound) (ts : Timestamp) : (a.keep fun v => !v.endedBy ts).Sound where
  linked k := by
    obtain ⟨n, hn, -⟩ := (h.linked k).filter_eq_drop ts
    rw [Chains.keep, hn]
    exact (h.linked k).drop n
  number_lt k v hv := h.number_lt k v (List.mem_filter.1 hv).1

end Chains

end Mvcc
