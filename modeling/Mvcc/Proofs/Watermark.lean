import Mvcc.Proofs.Lifecycle
import Mvcc.Proofs.Refinement
import Mvcc.Proofs.Stepwise
import Mvcc.Proofs.Timeline

/-!
# The watermark and what is collected below it

A collection may drop what no snapshot looks at, now or later. The watermark is the earliest begin of
an active transaction, or the present time if there is none. It does not go down: who begins later
has a later snapshot, and while nobody is active it follows the clock. So what ended at or before it
is out of sight for good, and a collection takes away exactly that.

* `lowWatermark_cases`, `le_lowWatermark`: the watermark as a greatest lower bound.
* `Orderly.lowWatermark_mono`: one step, and `Pristine.lowWatermark_mono` any number of them.
* `Layout.endedBy`, `Encodes.toList_keep`: the entries of a tree that a collection takes away.
* `Linked.keep_eq_last`: what is left when all of a chain lies in the past.
* `Session.Collects`, `Pristine.watermarked`: the result for every run of an engine without versions.
-/

namespace Mvcc

open Session

/-! ## The watermark -/

namespace Engine

variable {g : Engine}

theorem lowWatermark_cases (g : Engine) :
    (∃ id r, g.registry.get? id = some r ∧ g.lowWatermark = r.beginTs) ∨
      (∀ id, g.registry.get? id = none) ∧ g.lowWatermark = g.clock.last := by
  unfold lowWatermark OrderedMap.values
  cases hmin : ((g.registry.toList.map (·.2)).map (·.beginTs)).min? with
  | none =>
    have hnil : g.registry.toList = [] := by simpa [List.min?_eq_none_iff] using hmin
    refine Or.inr ⟨fun id => ?_, rfl⟩
    rw [Option.eq_none_iff_forall_ne_some]
    intro r hr
    rw [← OrderedMap.mem_toList_iff, hnil] at hr
    cases hr
  | some low =>
    obtain ⟨hmem, -⟩ := List.min?_eq_some_iff.1 hmin
    rw [List.map_map] at hmem
    obtain ⟨⟨id, r⟩, he, rfl⟩ := List.mem_map.1 hmem
    exact Or.inl ⟨id, r, (OrderedMap.mem_toList_iff _ _ _).1 he, rfl⟩

theorem le_lowWatermark {low : Timestamp} (clock : low ≤ g.clock.last)
    (registered : ∀ id r, g.registry.get? id = some r → low ≤ r.beginTs) :
    low ≤ g.lowWatermark := by
  rcases g.lowWatermark_cases with ⟨id, r, hr, heq⟩ | ⟨-, heq⟩
  · rw [heq]
    exact registered id r hr
  · rw [heq]
    exact clock

end Engine

namespace Session

variable {s s' : Session} {op : Op} {r : Reply} {id : TxnId} {t : Txn}

theorem Acts.registered_cases (hs : s.Acts s' op r) {u : Registration}
    (hu : s'.engine.registry.get? id = some u) :
    s.engine.registry.get? id = some u ∨ u.beginTs = s'.engine.clock.last := by
  have erased {i : TxnId} (registry : s'.engine.registry = s.engine.registry.erase i) :
      s.engine.registry.get? id = some u := by
    rw [registry, OrderedMap.get?_erase] at hu
    split_ifs at hu
    exact hu
  cases hs with
  | idle _ hsame => exact Or.inl (by rwa [hsame] at hu)
  | tended _ engine => exact Or.inl (by rwa [engine] at hu)
  | spent _ engine => exact Or.inl (by rwa [engine] at hu)
  | issued _ engine => exact Or.inl (by rwa [engine] at hu)
  | seen _ engine => exact Or.inl (by rwa [engine] at hu)
  | put _ _ engine => exact Or.inl (by rwa [engine] at hu)
  | released _ _ engine => exact Or.inl (by rwa [engine] at hu)
  | began name tick engine =>
    rw [engine] at hu
    replace hu := (OrderedMap.get?_insert _ _ _ _).symm.trans hu
    split_ifs at hu
    · cases hu
      exact Or.inr rfl
    · exact Or.inl hu
  | refused _ _ _ engine => exact Or.inl (erased (by rw [engine]))
  | aborted _ engine => exact Or.inl (erased (by rw [engine]))
  | dropped _ engine => exact Or.inl (erased (by rw [engine]))
  | settled _ _ engine => exact Or.inl (erased (by rw [engine]))
  | wrote _ _ _ _ _ engine => exact Or.inl (erased (by rw [engine]))

theorem Orderly.timely (h : s.Orderly) : s.Timely := by
  intro id r hr
  obtain ⟨t, active, rfl⟩ := (h.registered id r).1 hr
  exact h.begin_le id t active.1

theorem Orderly.lowWatermark_le (h : s.Orderly) (active : s.Active id t) :
    s.engine.lowWatermark ≤ t.beginTs :=
  Engine.lowWatermark_le ((h.registered id _).2 ⟨t, active, rfl⟩)

theorem Orderly.lowWatermark_mono (h : s.Orderly) (hs : s.Acts s' op r) :
    s.engine.lowWatermark ≤ s'.engine.lowWatermark := by
  have hclock := UInt64.le_trans (lowWatermark_le_clock h.timely) hs.clock_le
  refine Engine.le_lowWatermark hclock fun id u hu => ?_
  rcases hs.registered_cases hu with hold | hnew
  · exact Engine.lowWatermark_le hold
  · -- who has just begun looks at the present
    rw [hnew]
    exact hclock

theorem Orderly.run (h : s.Orderly) (ops : List Op) : (s.run ops).2.Orderly := by
  induction ops generalizing s with
  | nil => exact h
  | cons op rest ih => exact ih (h.next (acts_step s op))

theorem Orderly.lowWatermark_eq (h : s.Orderly) (idle : ∀ id t, ¬ s.Active id t) :
    s.engine.lowWatermark = s.engine.clock.last := by
  rcases s.engine.lowWatermark_cases with ⟨id, r, hr, -⟩ | ⟨-, heq⟩
  · obtain ⟨t, active, -⟩ := (h.registered id r).1 hr
    exact absurd active (idle id t)
  · exact heq

end Session

/-! ## Engines without versions and transactions -/

/-- An engine without versions and without transactions, before its first one. -/
structure Engine.Pristine (g : Engine) : Prop extends Fresh g where
  registry_eq : g.registry = ∅

namespace Engine

variable {g : Engine} {ops : List Op}

theorem pristine_withClock {s : Store} (h : s.tree = ∅) (clock : Clock) (every : Option UInt64) :
    (withClock s clock every).Pristine := ⟨fresh_withClock h clock every, rfl⟩

theorem pristine_inMemory : inMemory.Pristine := pristine_withClock rfl _ _

theorem pristine_open? {settings : Settings} {site : Site} (h : open? settings site = .ok g)
    (htree : g.store.tree = ∅) : g.Pristine := by
  obtain ⟨m, s, -, -, rfl⟩ := exists_of_open? h
  exact pristine_withClock htree _ _

theorem Pristine.orderly_session (h : g.Pristine) : g.session.Orderly where
  registered id r := by
    show g.registry.get? id = some r ↔ _
    simp [h.registry_eq, Active, session]
  id_eq id t ht := by cases ht
  handles id t ht := by cases ht
  begin_le id t ht := by cases ht
  named _ := ⟨fun id t ht => (by cases ht), by simp [session, h.lastId_eq]⟩

theorem Pristine.orderly (h : g.Pristine) (ops : List Op) : (g.after ops).Orderly :=
  h.orderly_session.run ops

theorem Pristine.lowWatermark_mono (h : g.Pristine) (ops more : List Op) :
    (g.after ops).engine.lowWatermark ≤ (g.after (ops ++ more)).engine.lowWatermark := by
  induction more using List.reverseRecOn with
  | nil =>
    rw [List.append_nil]
    exact UInt64.le_refl _
  | append_singleton more op ih =>
    rw [← List.append_assoc, after_concat]
    exact UInt64.le_trans ih ((h.orderly _).lowWatermark_mono (acts_step _ op))

end Engine

/-! ## What a collection takes away -/

/-- Whether stored bytes are those of a version that ended at or before `ts`. -/
def Layout.endedBy (ts : Timestamp) (b : Bytes) : Bool :=
  match decode b with
  | .ok v => v.endedBy ts
  | .error _ => false

theorem Version.endedBy_entry {v : Version} (fits : v.Fits) (ts : Timestamp) :
    Layout.endedBy ts v.entry.2 = v.endedBy ts := by
  unfold Layout.endedBy Version.entry
  simp only [Layout.decode_encode v fits]

namespace Chain

variable {c : Chain} {low : Timestamp}

theorem visible?_keep (c : Chain) {ts : Timestamp} (hts : low ≤ ts) :
    visible? (c.filter fun v => !v.endedBy low) ts = c.visible? ts := by
  rw [visible?, List.find?_filter, visible?]
  congr 1
  funext v
  by_cases hv : v.visibleAt ts = true
  · have hlate := ((v.visibleAt_iff ts).1 hv).2
    have hkept : v.endedBy low = false := by
      unfold Version.endedBy
      rw [Option.any_eq_false]
      intro e he
      have hlt := hlate e he
      simp only [decide_eq_false_iff_not]
      grind
    simp [hv, hkept]
  · simp [hv]

theorem Linked.latest?_keep (h : c.Linked) (low : Timestamp) :
    latest? (c.filter fun v => !v.endedBy low) = c.latest? := by
  have hspares : c.Spares (fun _ => True) (c.filter fun v => !v.endedBy low) := .pruned trivial
  unfold latest? last?
  rw [hspares.getLast?_eq h]

/-- Of a chain that lies in the past only the open version is left. -/
theorem Linked.keep_eq_last (h : c.Linked) (past : ∀ v ∈ c, v.beginTs ≤ low) :
    (c.filter fun v => !v.endedBy low) = c.getLast?.toList := by
  induction c with
  | nil => rfl
  | cons u c ih =>
    obtain _ | ⟨v, c⟩ := c
    · simp [Version.endedBy, linked_singleton.1 h]
    · obtain ⟨⟨-, -, hend⟩, htail⟩ := linked_cons_cons.1 h
      have hended : u.endedBy low = true := by
        simpa [Version.endedBy, hend] using past v (by simp)
      rw [List.filter_cons_of_neg (by simp [hended]), List.getLast?_cons_cons]
      exact ih htail fun w hw => past w (List.mem_cons_of_mem _ hw)

end Chain

namespace Tree

variable {t t' : Tree} {a : Chains} {low : Timestamp}

theorem Encodes.toList_keep (h : t.Encodes a) (h' : t'.Encodes (a.keep fun v => !v.endedBy low)) :
    t'.toList = t.toList.filter fun e => !Layout.endedBy low e.2 := by
  refine t'.ascending.ext (t.ascending.filter _) fun e => ?_
  rw [h'.mem_iff, List.mem_filter, h.mem_iff]
  constructor
  · rintro ⟨k, v, hv, rfl⟩
    obtain ⟨hv, hkept⟩ := List.mem_filter.1 hv
    exact ⟨⟨k, v, hv, rfl⟩, by rwa [Version.endedBy_entry (h.fits k v hv)]⟩
  · rintro ⟨⟨k, v, hv, rfl⟩, hkept⟩
    rw [Version.endedBy_entry (h.fits k v hv)] at hkept
    exact ⟨k, v, List.mem_filter.2 ⟨hv, hkept⟩, rfl⟩

theorem Encodes.countP_endedBy (h : t.Encodes a) {vs : List Version} (lists : a.Lists vs) :
    vs.countP (·.endedBy low) = t.toList.countP fun e => Layout.endedBy low e.2 := by
  obtain ⟨ws, hws, hfits, hlists⟩ := h.exists_versions
  have hperm : vs.Perm ws := by
    refine (List.perm_ext_iff_of_nodup lists.nodup hlists.nodup).2 fun v => ?_
    rw [lists.mem_iff, hlists.mem_iff]
  rw [hws, List.countP_map, hperm.countP_eq]
  refine List.countP_congr fun v hv => ?_
  simp [Version.endedBy_entry (hfits v hv)]

end Tree

/-! ## Collections -/

namespace Store

/-- What a snapshot shows of a record in a tree, as a store tells it. -/
def visibleIn (t : Tree) (k : RecordKey) (ts : Timestamp) : Except StoreError (Option Version) :=
  (({ medium := Medium.ofTree t } : Store).visible? k ts).1

/-- The open version of a record in a tree, as a store tells it. -/
def latestIn (t : Tree) (k : RecordKey) : Except StoreError (Option Version) :=
  (({ medium := Medium.ofTree t } : Store).latest? k).1

variable {t : Tree} {a : Chains} {k : RecordKey}

theorem visibleIn_eq (h : t.Encodes a) (hk : k.Fits) (ts : Timestamp) :
    visibleIn t k ts = .ok ((a k).visible? ts) := reading_ofTree (h.answers_visible? hk ts)

theorem latestIn_eq (h : t.Encodes a) (hk : k.Fits) : latestIn t k = .ok (a k).latest? :=
  reading_ofTree (h.answers_latest? hk)

end Store

namespace Session

variable {s : Session} {a : Chains}

/-- A collection takes away what ended by the watermark and counts it, or fails with the storage and
takes away nothing. -/
theorem exists_step_collect (h : s.engine.store.tree.Encodes a) :
    ∃ r store, s.step .collect =
        (r, { s with engine := { s.engine with store } }) ∧
      (r = .collected (s.engine.store.tree.toList.countP fun e =>
          Layout.endedBy s.engine.lowWatermark e.2) ∧
          store.tree.Encodes (a.keep fun v => !v.endedBy s.engine.lowWatermark) ∨
        ¬ s.engine.store.Served store ∧ (∃ e, r = .failed (.storage e)) ∧
          store.tree = s.engine.store.tree) := by
  obtain ⟨r, store, heq, -, hr⟩ := Store.exists_prune h s.engine.lowWatermark
  rw [step, onEngine, Engine.collect, Engine.onStore, heq]
  rcases hr with ⟨⟨vs, hlists, rfl⟩, hencodes⟩ | ⟨⟨e, rfl⟩, hserved, hkept⟩
  · refine ⟨_, store, rfl, Or.inl ⟨?_, hencodes⟩⟩
    rw [← h.countP_endedBy hlists]
    rfl
  · exact ⟨_, store, rfl, Or.inr ⟨hserved, ⟨e, rfl⟩, hkept.tree_eq⟩⟩

/-- What a collection does that the storage does not fail. -/
structure Collects (s s' : Session) (r : Reply) : Prop where
  answer : r = .collected (s.engine.store.tree.toList.countP fun e =>
    Layout.endedBy s.engine.lowWatermark e.2)
  removed : s'.engine.store.tree.toList = s.engine.store.tree.toList.filter fun e =>
    !Layout.endedBy s.engine.lowWatermark e.2
  visible : ∀ k : RecordKey, k.Fits → ∀ ts, s.engine.lowWatermark ≤ ts →
    Store.visibleIn s'.engine.store.tree k ts = Store.visibleIn s.engine.store.tree k ts
  latest : ∀ k : RecordKey, k.Fits →
    Store.latestIn s'.engine.store.tree k = Store.latestIn s.engine.store.tree k
  maxTs : s'.engine.store.maxTs = s.engine.store.maxTs
  again : s'.engine.store.Served (s'.step .collect).2.engine.store →
    (s'.step .collect).1 = .collected 0 ∧
      (s'.step .collect).2.engine.store.tree = s'.engine.store.tree

theorem Stands.collects (h : s.Stands a)
    (served : s.engine.store.Served (s.step .collect).2.engine.store) :
    s.Collects (s.step .collect).2 (s.step .collect).1 := by
  have hmaxTs : (s.step .collect).2.engine.store.maxTs = s.engine.store.maxTs :=
    Store.maxTs_prune _ _
  obtain ⟨r, store, heq, hr⟩ := exists_step_collect h.encodes
  rw [heq] at served hmaxTs ⊢
  rcases hr with ⟨rfl, hencodes⟩ | ⟨hfailed, -⟩
  · have hremoved := h.encodes.toList_keep hencodes
    refine ⟨rfl, hremoved, fun k hk ts hts => ?_, fun k hk => ?_, hmaxTs, fun served' => ?_⟩
    · rw [Store.visibleIn_eq hencodes hk, Store.visibleIn_eq h.encodes hk]
      exact congrArg _ (Chain.visible?_keep (a k) hts)
    · rw [Store.latestIn_eq hencodes hk, Store.latestIn_eq h.encodes hk]
      exact congrArg _ ((h.sound.linked k).latest?_keep _)
    · -- nothing that is left ended by the watermark, which is where it was
      have hlow : ({ s with engine := { s.engine with store } } : Session).engine.lowWatermark =
          s.engine.lowWatermark := rfl
      have hzero : (store.tree.toList.countP fun e =>
          Layout.endedBy s.engine.lowWatermark e.2) = 0 := by
        rw [hremoved, List.countP_eq_zero]
        intro e he
        simpa using (List.mem_filter.1 he).2
      have hkeep : (a.keep fun v => !v.endedBy s.engine.lowWatermark).keep
          (fun v => !v.endedBy s.engine.lowWatermark) =
            a.keep fun v => !v.endedBy s.engine.lowWatermark := by
        funext k
        simp [Chains.keep]
      obtain ⟨r', store', heq', hr'⟩ := exists_step_collect
        (s := { s with engine := { s.engine with store } }) hencodes
      rw [heq'] at served' ⊢
      rcases hr' with ⟨rfl, hencodes'⟩ | ⟨hfailed, -⟩
      · rw [hlow, hkeep] at hencodes'
        exact ⟨congrArg _ hzero, hencodes'.tree_eq hencodes⟩
      · exact absurd served' hfailed
  · exact absurd served hfailed

end Session

namespace Trace

variable {tr : Trace} {s : Session} {a : Chains} {k : RecordKey}

theorem Chronicle.begin_le (h : tr.Chronicle s a) (k : RecordKey) :
    ∀ v ∈ a k, v.beginTs ≤ s.engine.clock.last := by
  intro v hv
  obtain ⟨n, hmap, -⟩ := h.stored k
  have hmark : v.mark ∈ (tr.writers k).drop n := hmap ▸ List.mem_map_of_mem hv
  exact h.ordered.writer_le (List.mem_of_mem_drop hmark)

theorem Chronicle.ne_nil (h : tr.Chronicle s a) (written : tr.writers k ≠ []) : a k ≠ [] := by
  intro hnil
  have hlast := (h.stored k).getLast?_eq
  rw [hnil, List.getLast?_nil, Option.map_none, eq_comm, List.getLast?_eq_none_iff] at hlast
  exact written hlast

end Trace

namespace Engine

/-- Collections in a run: the watermark only goes up, nobody looks below it, and what ended by then
is what goes. -/
structure Watermarked (g : Engine) (ops : List Op) : Prop where
  mono : ∀ more, (g.after ops).engine.lowWatermark ≤ (g.after (ops ++ more)).engine.lowWatermark
  le_active : ∀ id t, (g.after ops).Active id t → (g.after ops).engine.lowWatermark ≤ t.beginTs
  le_begun : ∀ more id ts, ((g.after (ops ++ more)).step .begin).1 = .began id ts →
    (g.after ops).engine.lowWatermark ≤ ts
  collects : (g.after ops).engine.store.Served ((g.after ops).step .collect).2.engine.store →
    (g.after ops).Collects ((g.after ops).step .collect).2 ((g.after ops).step .collect).1
  /-- While nobody is active the open version is all that is left of a record that was committed. -/
  alone : (g.after ops).engine.store.Served ((g.after ops).step .collect).2.engine.store →
    (∀ id t, ¬ (g.after ops).Active id t) → ∀ k : RecordKey, k.Fits →
      (g.trace ops).writers k ≠ [] → ∃ v, v.endTs = none ∧
        Store.latestIn (g.after ops).engine.store.tree k = .ok (some v) ∧
        Store.chainIn ((g.after ops).step .collect).2.engine.store.tree k = .ok [v]

/-- Collections are safe and complete, in every run of an engine without versions. -/
theorem Pristine.watermarked {g : Engine} (h : g.Pristine) (ops : List Op)
    (fits : ∀ op ∈ ops, op.Fits) : g.Watermarked ops := by
  obtain ⟨a, ha⟩ := h.chronicle ops fits
  have horderly := h.orderly ops
  refine ⟨h.lowWatermark_mono ops, fun id t => horderly.lowWatermark_le, fun more id ts hbegan => ?_,
    ha.stands.collects, fun served idle k hk written => ?_⟩
  · have hmono := h.lowWatermark_mono ops more
    have hclock := lowWatermark_le_clock (h.orderly (ops ++ more)).timely
    obtain ⟨htick, rfl⟩ := (acts_step (g.after (ops ++ more)) .begin).issued?_eq
      (congrArg (fun r => issued? _ ⟨.begin, r⟩) hbegan)
    have hlt := Clock.lt_last_of_tick? htick
    grind
  · obtain ⟨r, store, heq, hr⟩ := exists_step_collect ha.stands.encodes
    rw [heq] at served ⊢
    rcases hr with ⟨-, hencodes⟩ | ⟨hfailed, -⟩
    · obtain ⟨v, hv⟩ := Option.ne_none_iff_exists'.1
        (mt List.getLast?_eq_none_iff.1 (ha.ne_nil written))
      have hlinked := ha.stands.sound.linked k
      refine ⟨v, hlinked.open_last v hv, ?_, ?_⟩
      · rw [Store.latestIn_eq ha.stands.encodes hk, hlinked.latest?_eq, hv]
      · have hkeep := hlinked.keep_eq_last (ha.begin_le k)
        rw [Store.chainIn_eq hencodes hk, horderly.lowWatermark_eq idle, Chains.keep, hkeep, hv]
        rfl
    · exact absurd served hfailed

/-- Two versions of one record. While the second transaction looks at the first version a collection
takes away nothing; once it is dropped the next one leaves the open version. -/
theorem watermarked_lookback :
    let k : RecordKey := ⟨"t", .int 1⟩
    let ops : List Op := [.begin, .write ⟨1⟩ k [7], .commit ⟨1⟩, .begin, .begin, .write ⟨3⟩ k [8],
      .commit ⟨3⟩]
    inMemory.Pristine ∧ (∀ op ∈ ops, op.Fits) ∧
      inMemory.Watermarked ops ∧ ((inMemory.after ops).step .collect).1 = .collected 0 ∧
      (∀ op ∈ ops ++ [.drop ⟨2⟩], op.Fits) ∧ inMemory.Watermarked (ops ++ [.drop ⟨2⟩]) ∧
      ((inMemory.after (ops ++ [.drop ⟨2⟩])).step .collect).1 = .collected 1 := by
  intro k ops
  have hfits : ∀ op ∈ ops ++ [.drop ⟨2⟩], op.Fits := by
    simp [ops, k, Op.Fits, Op.fits_key, UInt64.size]
  have hfits' : ∀ op ∈ ops, op.Fits := fun op hop => hfits op (List.mem_append_left _ hop)
  exact ⟨pristine_inMemory, hfits', pristine_inMemory.watermarked ops hfits', by decide +kernel,
    hfits, pristine_inMemory.watermarked _ hfits, by decide +kernel⟩

end Engine

end Mvcc
