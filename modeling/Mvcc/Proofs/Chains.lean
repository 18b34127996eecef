import Mathlib.Data.List.Nodup
import Mvcc.Proofs.Chain
import Mvcc.Proofs.Layout
import Mvcc.Proofs.Probe

/-!
# Trees as chains by record

A tree of stored versions stands for the chain of every record. `Tree.Encodes t a` says that `t`
holds the versions of the chains `a`, each at its place, and nothing else.

* `Encodes.insert`, `Encodes.applyStored`, `Encodes.applyRemove`: changes of the tree as changes of
  the chains.
* `Encodes.answers_chain`, `answers_visible?`, `answers_latest?`, `answers_versions`, `answers_ended`:
  what probes find.
-/

namespace Mvcc

open Std

/-- The chain of every record. -/
abbrev Chains := RecordKey → Chain

/-- A version at its place. -/
def Version.entry (v : Version) : Bytes × Bytes := (Layout.location v.key v.number, Layout.encode v)

theorem Version.entry_inj {u v : Version} (hu : u.Fits) (hv : v.Fits) (h : u.entry = v.entry) :
    u = v := by
  have hdec := Layout.decode_encode u hu
  rw [show Layout.encode u = Layout.encode v from congrArg Prod.snd h,
    Layout.decode_encode v hv] at hdec
  cases hdec
  rfl

/-- The chain with a version at its place, in place of one with the same number. -/
def Chain.put (v : Version) (c : Chain) : Chain :=
  c.filter (fun u => decide (u.number < v.number)) ++
    v :: c.filter (fun u => decide (v.number < u.number))

/-- The chains after a version was put in place. -/
def Chains.put (a : Chains) (v : Version) : Chains :=
  fun k => if k = v.key then Chain.put v (a k) else a k

/-- All versions of the chains, each once. -/
structure Chains.Lists (a : Chains) (vs : List Version) : Prop where
  nodup : vs.Nodup
  mem_iff : ∀ v, v ∈ vs ↔ v ∈ a v.key

/-- The versions with a property. -/
def Chains.keep (a : Chains) (p : Version → Bool) : Chains := fun k => (a k).filter p

theorem Chain.mem_put {u v : Version} {c : Chain} :
    u ∈ Chain.put v c ↔ u = v ∨ u ∈ c ∧ u.number ≠ v.number := by
  simp only [put, List.mem_append, List.mem_filter, List.mem_cons, decide_eq_true_eq]
  constructor
  · rintro (⟨hu, hlt⟩ | rfl | ⟨hu, hlt⟩)
    · exact Or.inr ⟨hu, by grind⟩
    · exact Or.inl rfl
    · exact Or.inr ⟨hu, by grind⟩
  · rintro (rfl | ⟨hu, hne⟩)
    · exact Or.inr (Or.inl rfl)
    · rcases UInt64.lt_or_lt_of_ne hne with hlt | hlt
      · exact Or.inl ⟨hu, hlt⟩
      · exact Or.inr (Or.inr ⟨hu, hlt⟩)

theorem Chains.mem_put {a : Chains} {u v : Version} {k : RecordKey} :
    u ∈ a.put v k ↔
      k = v.key ∧ u = v ∨ u ∈ a k ∧ ¬ (k = v.key ∧ u.number = v.number) := by
  rw [Chains.put]
  split_ifs with hk
  · rw [Chain.mem_put]
    simp [hk]
  · simp [hk]

theorem Chain.pairwise_put (v : Version) {c : Chain}
    (h : c.Pairwise fun u w => u.number < w.number) :
    (Chain.put v c).Pairwise fun u w => u.number < w.number := by
  refine List.pairwise_append.2 ⟨h.filter _, List.pairwise_cons.2 ⟨?_, h.filter _⟩, ?_⟩
  · intro w hw
    simpa using (List.mem_filter.1 hw).2
  · intro u hu w hw
    have hlt : u.number < v.number := by simpa using (List.mem_filter.1 hu).2
    rcases List.mem_cons.1 hw with rfl | hw
    · exact hlt
    · exact UInt64.lt_trans hlt (by simpa using (List.mem_filter.1 hw).2)

theorem Chain.put_of_lt (v : Version) {c : Chain} (h : ∀ u ∈ c, u.number < v.number) :
    Chain.put v c = c ++ [v] := by
  have hall : (c.filter fun u => decide (u.number < v.number)) = c :=
    List.filter_eq_self.2 fun u hu => by simpa using h u hu
  have hnone : (c.filter fun u => decide (v.number < u.number)) = [] :=
    List.filter_eq_nil_iff.2 fun u hu => by
      have := h u hu
      simp only [decide_eq_true_eq]
      grind
  rw [put, hall, hnone]

theorem Chain.put_concat {v u : Version} {c : Chain} (h : ∀ w ∈ c, w.number < v.number)
    (hu : u.number = v.number) : Chain.put v (c ++ [u]) = c ++ [v] := by
  have hself : ¬ v.number < v.number := UInt64.lt_irrefl _
  have hput := Chain.put_of_lt v h
  rw [put] at hput ⊢
  rw [List.filter_append, List.filter_append]
  simpa [hu, hself] using hput

theorem Chain.foldl_put_takeover {c : Chain} {v : Version}
    (h : c.Pairwise fun u w => u.number < w.number) (hv : c.Continues v) :
    (c.takeover v).foldl (fun c w => Chain.put w c) c = c.extend v := by
  rcases List.eq_nil_or_concat' c with rfl | ⟨c, u, rfl⟩
  · rfl
  · obtain ⟨-, -, hlt⟩ := List.pairwise_append.1 h
    have hcu : ∀ w ∈ c, w.number < u.number := fun w hw => hlt w hw u (by simp)
    have huv : u.number < v.number := by
      rw [UInt64.lt_iff_toNat_lt, hv.number_eq u (by simp)]
      exact Nat.lt_succ_self _
    have hclose : Chain.put (u.closedAt v.beginTs) (c ++ [u]) = c ++ [u.closedAt v.beginTs] :=
      Chain.put_concat hcu rfl
    rw [extend_concat, takeover, List.getLast?_concat]
    show Chain.put v (Chain.put (u.closedAt v.beginTs) (c ++ [u])) = _
    rw [hclose, Chain.put_of_lt, List.append_assoc]
    · rfl
    · intro w hw
      rcases List.mem_append.1 hw with hw | hw
      · exact UInt64.lt_trans (hcu w hw) huv
      · obtain rfl : w = u.closedAt v.beginTs := by simpa using hw
        exact huv

/-- The chains after versions of different records took over. -/
def Chains.install (a : Chains) (vs : List Version) : Chains := fun k =>
  match vs.find? fun v => decide (v.key = k) with
  | none => a k
  | some v => (a k).extend v

theorem Chains.foldl_put_apply (a : Chains) (ws : List Version) (k : RecordKey) :
    ws.foldl Chains.put a k =
      (ws.filter fun w => decide (w.key = k)).foldl (fun c w => Chain.put w c) (a k) := by
  induction ws generalizing a with
  | nil => rfl
  | cons w ws ih =>
    rw [List.foldl_cons, ih, List.filter_cons, Chains.put]
    by_cases hk : w.key = k
    · rw [if_pos hk.symm, if_pos (by simpa using hk), List.foldl_cons]
    · rw [if_neg (Ne.symm hk), if_neg (by simpa using hk)]

theorem Chain.filter_takeover {c : Chain} {v : Version} (hkey : ∀ u ∈ c, u.key = v.key)
    (k : RecordKey) :
    (c.takeover v).filter (fun w => decide (w.key = k)) =
      if v.key = k then c.takeover v else [] := by
  have hall : ∀ w ∈ c.takeover v, w.key = v.key := by
    intro w hw
    rw [takeover, List.mem_append, Option.mem_toList, Option.map_eq_some_iff] at hw
    rcases hw with ⟨u, hu, rfl⟩ | hw
    · exact hkey u (List.mem_of_getLast? hu)
    · rw [List.mem_singleton.1 hw]
  split_ifs with hk
  · exact List.filter_eq_self.2 fun w hw => by simpa [hk] using hall w hw
  · exact List.filter_eq_nil_iff.2 fun w hw => by simpa [hall w hw] using hk

theorem Chains.foldl_put_takeovers {a : Chains} {vs : List Version}
    (hkey : ∀ k, ∀ v ∈ a k, v.key = k) (ha : ∀ k, (a k).Pairwise fun u w => u.number < w.number)
    (hnodup : (vs.map (·.key)).Nodup) (hv : ∀ v ∈ vs, (a v.key).Continues v) :
    (vs.flatMap fun v => (a v.key).takeover v).foldl Chains.put a = a.install vs := by
  funext k
  rw [Chains.foldl_put_apply, List.filter_flatMap, Chains.install]
  simp only [fun v : Version => Chain.filter_takeover (hkey v.key) k]
  induction vs with
  | nil => rfl
  | cons v vs ih =>
    obtain ⟨hnot, hrest⟩ := List.nodup_cons.1 hnodup
    rw [List.flatMap_cons, List.find?_cons]
    by_cases hk : v.key = k
    · have hnone : (vs.flatMap fun w => if w.key = k then (a w.key).takeover w else []) = [] := by
        rw [List.flatMap_eq_nil_iff]
        intro w hw
        rw [if_neg]
        intro hwk
        exact hnot (List.mem_map.2 ⟨w, hw, hwk.trans hk.symm⟩)
      rw [if_pos hk, hnone, List.append_nil]
      subst hk
      simp only [decide_true]
      exact Chain.foldl_put_takeover (ha v.key) (hv v List.mem_cons_self)
    · rw [if_neg hk, List.nil_append]
      simp only [hk, decide_false]
      exact ih hrest fun w hw => hv w (List.mem_cons_of_mem _ hw)

namespace Tree

/-- The tree holds the versions of these chains, each at its place, and nothing else. -/
structure Encodes (t : Tree) (a : Chains) : Prop where
  mem_iff : ∀ e, e ∈ t.toList ↔ ∃ k, ∃ v ∈ a k, e = v.entry
  key_eq : ∀ k, ∀ v ∈ a k, v.key = k
  fits : ∀ k, ∀ v ∈ a k, v.Fits
  ascending : ∀ k, (a k).Pairwise fun u v => u.number < v.number

variable {t : Tree} {a : Chains} {k : RecordKey}

theorem encodes_empty : Encodes ∅ fun _ => [] where
  mem_iff := by simp
  key_eq := by simp
  fits := by simp
  ascending := by simp

theorem Encodes.eq_of_number (h : Encodes t a) {u v : Version} (hu : u ∈ a k) (hv : v ∈ a k)
    (hn : u.number = v.number) : u = v := by
  have hdiff : ((a k).map (·.number)).Nodup :=
    List.pairwise_map.2 ((h.ascending k).imp fun hlt => UInt64.ne_of_lt hlt)
  exact List.inj_on_of_nodup_map hdiff hu hv hn

/-! ## Changes -/

theorem Encodes.insert (h : Encodes t a) {v : Version} (hv : v.Fits) :
    Encodes (t.edit v.stored) (a.put v) where
  mem_iff e := by
    show e ∈ (OrderedMap.insert t _ _).toList ↔ _
    rw [OrderedMap.mem_insert_iff, h.mem_iff]
    constructor
    · rintro (rfl | ⟨hne, k, u, hu, rfl⟩)
      · exact ⟨v.key, v, Chains.mem_put.2 (Or.inl ⟨rfl, rfl⟩), rfl⟩
      · refine ⟨k, u, Chains.mem_put.2 (Or.inr ⟨hu, fun ⟨hk, hn⟩ => hne ?_⟩), rfl⟩
        show Layout.location u.key u.number = Layout.location v.key v.number
        rw [h.key_eq k u hu, hk, hn]
    · rintro ⟨k, u, hu, rfl⟩
      rcases Chains.mem_put.1 hu with ⟨-, rfl⟩ | ⟨hu, hne⟩
      · exact Or.inl rfl
      · -- another version has another place
        refine Or.inr ⟨fun hloc => hne ?_, k, u, hu, rfl⟩
        rw [← h.key_eq k u hu]
        exact (Layout.location_inj (h.fits k u hu).1 hv.1).1 hloc
  key_eq k u hu := by
    rcases Chains.mem_put.1 hu with ⟨hk, rfl⟩ | ⟨hu, -⟩
    · exact hk.symm
    · exact h.key_eq k u hu
  fits k u hu := by
    rcases Chains.mem_put.1 hu with ⟨-, rfl⟩ | ⟨hu, -⟩
    · exact hv
    · exact h.fits k u hu
  ascending k := by
    rw [Chains.put]
    split_ifs
    · exact Chain.pairwise_put v (h.ascending k)
    · exact h.ascending k

theorem Encodes.applyStored (h : Encodes t a) {vs : List Version} (hv : ∀ v ∈ vs, v.Fits) :
    Encodes (t.apply (vs.map Version.stored)) (vs.foldl Chains.put a) := by
  induction vs generalizing t a with
  | nil => exact h
  | cons v vs ih =>
    exact ih (h.insert (hv v List.mem_cons_self)) fun w hw => hv w (List.mem_cons_of_mem _ hw)

theorem mem_apply_remove (t : Tree) (places : List Bytes) (e : Bytes × Bytes) :
    e ∈ (t.apply (places.map .remove)).toList ↔ e ∈ t.toList ∧ e.1 ∉ places := by
  induction places generalizing t with
  | nil => simp
  | cons place places ih =>
    rw [List.map_cons, apply_cons, ih]
    show e ∈ (OrderedMap.erase t place).toList ∧ _ ↔ _
    rw [OrderedMap.mem_erase_iff, List.mem_cons]
    tauto

theorem Encodes.applyRemove (h : Encodes t a) {places : List Bytes} {p : Version → Bool}
    (hp : ∀ k, ∀ v ∈ a k, v.entry.1 ∈ places ↔ p v = false) :
    Encodes (t.apply (places.map .remove)) (a.keep p) where
  mem_iff e := by
    rw [mem_apply_remove, h.mem_iff]
    constructor
    · rintro ⟨⟨k, v, hv, rfl⟩, hnot⟩
      rw [hp k v hv, Bool.not_eq_false] at hnot
      exact ⟨k, v, List.mem_filter.2 ⟨hv, hnot⟩, rfl⟩
    · rintro ⟨k, v, hv, rfl⟩
      obtain ⟨hv, hpv⟩ := List.mem_filter.1 hv
      exact ⟨⟨k, v, hv, rfl⟩, by rw [hp k v hv, hpv]; decide⟩
  key_eq k v hv := h.key_eq k v (List.mem_filter.1 hv).1
  fits k v hv := h.fits k v (List.mem_filter.1 hv).1
  ascending k := (h.ascending k).filter _

/-! ## What probes find -/

/-- The versions of a record are the entries under its key. -/
theorem Encodes.scanPrefix_eq (h : Encodes t a) (hk : k.Fits) :
    t.scanPrefix k.encode = (a k).map Version.entry := by
  rw [scanPrefix_eq_filter]
  refine Ascending.ext (t.ascending.filter _) ?_ fun e => ?_
  · refine List.pairwise_map.2 ((h.ascending k).imp_of_mem fun {u v} hu hv hlt => ?_)
    rw [Version.entry, Version.entry, h.key_eq k u hu, h.key_eq k v hv]
    exact (Layout.compare_location_eq_lt_iff k _ _).2 hlt
  · rw [List.mem_filter, h.mem_iff, List.mem_map, List.isPrefixOf_iff_prefix]
    constructor
    · rintro ⟨⟨k', v, hv, rfl⟩, hpre⟩
      obtain rfl : k = v.key := (Layout.prefix_location_iff hk (h.fits k' v hv).1 _).1 hpre
      rw [← h.key_eq k' v hv] at hv
      exact ⟨v, hv, rfl⟩
    · rintro ⟨v, hv, rfl⟩
      refine ⟨⟨k, v, hv, rfl⟩, ?_⟩
      rw [Version.entry, h.key_eq k v hv]
      exact List.prefix_append _ _

theorem version_entry {v : Version} (hv : v.Fits) :
    Item.version (.ok v.entry) = .ok (v.entry.1, v) := by
  rw [Version.entry, Item.version]
  simp only [Layout.decode_encode v hv]

theorem decodeAll_entries {vs : List Version} (hv : ∀ v ∈ vs, v.Fits) :
    Probe.decodeAll ((vs.map Version.entry).map .ok) = .ok (vs.map fun v => (v.entry.1, v)) := by
  induction vs with
  | nil => rfl
  | cons v vs ih =>
    rw [List.map_cons, List.map_cons, Probe.decodeAll_cons, version_entry (hv v List.mem_cons_self),
      ih fun w hw => hv w (List.mem_cons_of_mem _ hw)]
    rfl

theorem firstVisible?_entries (ts : Timestamp) {vs : List Version} (hv : ∀ v ∈ vs, v.Fits) :
    Probe.firstVisible? ts ((vs.map Version.entry).map .ok) = .ok (Chain.visible? vs ts) := by
  induction vs with
  | nil => rfl
  | cons v vs ih =>
    rw [List.map_cons, List.map_cons, Probe.firstVisible?, version_entry (hv v List.mem_cons_self),
      Chain.visible?, List.find?_cons]
    simp only [bind, Except.bind]
    cases v.visibleAt ts with
    | true => rfl
    | false => exact ih fun w hw => hv w (List.mem_cons_of_mem _ hw)

theorem Encodes.answers_chain (h : Encodes t a) (hk : k.Fits) :
    (Probe.chain k).Answers t (.ok (a k)) := by
  have hchain := Probe.answers_chain t k
  rw [h.scanPrefix_eq hk, decodeAll_entries (h.fits k)] at hchain
  rwa [Except.map, List.map_map, show ((·.2) ∘ fun v : Version => (v.entry.1, v)) = id from rfl,
    List.map_id] at hchain

theorem Encodes.answers_last? (h : Encodes t a) (hk : k.Fits) :
    (Probe.last? k).Answers t (.ok (a k).last?) :=
  (h.answers_chain hk).map _

theorem Encodes.answers_latest? (h : Encodes t a) (hk : k.Fits) :
    (Probe.latest? k).Answers t (.ok (a k).latest?) :=
  (h.answers_chain hk).map _

theorem Encodes.answers_visible? (h : Encodes t a) (hk : k.Fits) (ts : Timestamp) :
    (Probe.visible? k ts).Answers t (.ok ((a k).visible? ts)) := by
  have hall := Probe.answers_items (t := t) .scanPrefix (·.scanPrefix k.encode)
    (Probe.firstVisible? ts) (Probe.firstVisible?_set ts _)
  rw [h.scanPrefix_eq hk, firstVisible?_entries ts (h.fits k)] at hall
  exact hall

theorem Encodes.exists_versions (h : Encodes t a) :
    ∃ vs : List Version, t.toList = vs.map Version.entry ∧ (∀ v ∈ vs, v.Fits) ∧ a.Lists vs := by
  have hlist : ∀ l : List (Bytes × Bytes), (∀ e ∈ l, ∃ v : Version, v.Fits ∧ e = v.entry) →
      ∃ vs : List Version, l = vs.map Version.entry ∧ ∀ v ∈ vs, v.Fits := by
    intro l hl
    induction l with
    | nil => exact ⟨[], rfl, by simp⟩
    | cons e l ih =>
      obtain ⟨v, hv, rfl⟩ := hl e List.mem_cons_self
      obtain ⟨vs, rfl, hvs⟩ := ih fun e he => hl e (List.mem_cons_of_mem _ he)
      exact ⟨v :: vs, rfl, by simpa using ⟨hv, hvs⟩⟩
  obtain ⟨vs, hvs, hfits⟩ := hlist t.toList fun e he => by
    obtain ⟨k, v, hv, rfl⟩ := (h.mem_iff e).1 he
    exact ⟨v, h.fits k v hv, rfl⟩
  have hnodup : t.toList.Nodup := t.ascending.nodup
  rw [hvs] at hnodup
  refine ⟨vs, hvs, hfits, hnodup.of_map _, fun v => ⟨fun hv => ?_, fun hv => ?_⟩⟩
  · obtain ⟨k, u, hu, he⟩ := (h.mem_iff v.entry).1 (hvs ▸ List.mem_map_of_mem hv)
    obtain rfl := Version.entry_inj (hfits v hv) (h.fits k u hu) he
    rwa [h.key_eq k v hu]
  · have hmem := (h.mem_iff v.entry).2 ⟨v.key, v, hv, rfl⟩
    rw [hvs] at hmem
    obtain ⟨u, hu, he⟩ := List.mem_map.1 hmem
    exact Version.entry_inj (hfits u hu) (h.fits _ v hv) he ▸ hu

theorem Encodes.answers_versions (h : Encodes t a) :
    ∃ vs : List Version, Probe.versions.Answers t (.ok (vs.map fun v => (v.entry.1, v))) ∧
      (∀ v ∈ vs, v.Fits) ∧ a.Lists vs := by
  obtain ⟨vs, hvs, hfits, hlists⟩ := h.exists_versions
  have hall := Probe.answers_items (t := t) .iterate (·.toList) Probe.decodeAll
    (Probe.decodeAll_set _)
  rw [hvs, decodeAll_entries hfits] at hall
  exact ⟨vs, hall, hfits, hlists⟩

theorem Encodes.answers_ended (h : Encodes t a) (ts : Timestamp) :
    ∃ vs, a.Lists vs ∧
      (Probe.ended ts).Answers t (.ok ((vs.filter (·.endedBy ts)).map (·.entry.1))) ∧
      ∀ k, ∀ v ∈ a k,
        v.entry.1 ∈ (vs.filter (·.endedBy ts)).map (·.entry.1) ↔ (!v.endedBy ts) = false := by
  obtain ⟨vs, hall, hfits, hlists⟩ := h.answers_versions
  have hans := hall.map fun found =>
    (found.filter fun e => e.2.endTs.any fun stop => decide (stop ≤ ts)).map (·.1)
  rw [List.filter_map, List.map_map] at hans
  refine ⟨vs, hlists, hans, fun k v hv => ?_⟩
  simp only [List.mem_map, List.mem_filter, Bool.not_eq_false']
  constructor
  · rintro ⟨u, ⟨hu, hended⟩, hloc⟩
    have hfits' := h.fits k v hv
    obtain ⟨hkey, hnum⟩ := (Layout.location_inj (hfits u hu).1 hfits'.1).1 hloc
    -- of one record and number there is one version
    have hu' := (hlists.mem_iff u).1 hu
    rw [hkey, h.key_eq k v hv] at hu'
    rwa [h.eq_of_number hu' hv hnum] at hended
  · intro hended
    refine ⟨v, ⟨(hlists.mem_iff v).2 ?_, hended⟩, rfl⟩
    rwa [h.key_eq k v hv]

end Tree

end Mvcc
