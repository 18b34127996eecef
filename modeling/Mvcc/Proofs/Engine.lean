import Mvcc.Engine.Commit
import Mvcc.Proofs.Sound

/-!
# What engine operations do

How a read, a commit and a collection end, said once in terms of the chains that the tree stands
for.

* `Engine.Reads`: how a read ends.
* `Engine.Refuses`, `Engine.Leaves`, `Engine.Commits`: why a commit is refused, what a commit
  leaves of the chains, and how a commit ends.
* `exists_read`, `exists_collect`, `exists_commit`: the operations end in one of these ways.
* `lowWatermark_le`: a collection spares what registered transactions may read.
-/

namespace Mvcc

/-- The transaction once its commit was answered. -/
def Txn.answered (t : Txn) (a : Chains) : Except TxnError Timestamp → Txn
  | .error _ => { t with status := .aborted, writes := ∅ }
  | .ok ts => { t with
      status := .committed, commitTs := some ts, writes := a.numbered t.writes }

theorem Txn.status_answered_ne (t : Txn) (a : Chains) (r : Except TxnError Timestamp) :
    (t.answered a r).status ≠ .active := by
  cases r <;> exact Status.noConfusion

namespace Engine

variable {g g' : Engine} {t : Txn} {a : Chains}

theorem lowWatermark_le {id : TxnId} {r : Registration} (h : g.registry.get? id = some r) :
    g.lowWatermark ≤ r.beginTs := by
  have hmem : r.beginTs ∈ g.registry.values.map (·.beginTs) := by
    rw [OrderedMap.values, List.map_map]
    exact List.mem_map.2 ⟨(id, r), (OrderedMap.mem_toList_iff _ _ _).2 h, rfl⟩
  rw [lowWatermark]
  cases hmin : (g.registry.values.map (·.beginTs)).min? with
  | none => exact absurd (List.min?_eq_none_iff.1 hmin) (List.ne_nil_of_mem hmem)
  | some low => exact (List.min?_eq_some_iff.1 hmin).2 _ hmem

/-- Why a commit is refused. -/
inductive Refuses (g : Engine) (t : Txn) (a : Chains) (g' : Engine) : TxnError → Prop
  | conflict {c : Conflict} (found : a.conflict? t g.clock.last = some c)
    (clock : g'.clock = g.clock) : Refuses g t a g' (.conflict c)
  | exhausted (free : a.conflict? t g.clock.last = none) (writes : t.writes.isEmpty = false)
    (last : g.clock.last = Timestamp.greatest) (clock : g'.clock = g.clock) :
    Refuses g t a g' (.exhausted g.clock.last)
  | storage {e : StoreError} (failed : ¬ g.store.Served g'.store) : Refuses g t a g' (.storage e)

/-- Whether the next commit with writes makes a collection due. -/
def Due (g : Engine) : Prop := ∃ n ∈ g.collectEvery, n.toNat ≤ g.commitsSince + 1

/-- What is left of the chains of a commit once the collection that may be due was tried. -/
inductive Leaves (g : Engine) (g' : Engine) (a : Chains) : Chains → Prop
  | early (undue : ¬ g.Due) (count : g'.commitsSince = g.commitsSince + 1) : Leaves g g' a a
  | failed (due : g.Due) : Leaves g g' a a
  | collected {low : Timestamp} (due : g.Due)
    (low_le : ∀ id r, g.registry.get? id = some r → low ≤ r.beginTs) :
    Leaves g g' a (a.keep fun v => !v.endedBy low)

/-- How the commit of a transaction ends. -/
inductive Commits (g : Engine) (t : Txn) (a : Chains) (g' : Engine) :
    Except TxnError Timestamp → Prop
  | refused {e : TxnError} (reason : g.Refuses t a g' e) (kept : g.store.Kept g'.store)
    (count : g'.commitsSince = g.commitsSince) : Commits g t a g' (.error e)
  | readOnly (free : a.conflict? t g.clock.last = none) (writes : t.writes.isEmpty = true)
    (kept : g.store.Kept g'.store) (clock : g'.clock = g.clock)
    (count : g'.commitsSince = g.commitsSince) : Commits g t a g' (.ok t.beginTs)
  | wrote {a' : Chains} (free : a.conflict? t g.clock.last = none)
    (writes : t.writes.isEmpty = false) (tick : g.clock.tick? = some g'.clock)
    (leaves : g.Leaves g' (a.commit t.writes g'.clock.last) a')
    (encodes : g'.store.tree.Encodes a') : Commits g t a g' (.ok g'.clock.last)

/-- The engine has `registry` now and is else the same but for store, clock and counts. Names are
used up only by a begin that no timestamp was left for. -/
structure Carries (g g' : Engine) (registry : Registry) : Prop where
  called : g.store.Called g'.store
  clock : g'.clock = g.clock ∨ g.clock.tick? = some g'.clock
  registry_eq : g'.registry = registry
  lastId_eq : g'.lastId = g.lastId ∨ g.clock.last = Timestamp.greatest
  collectEvery_eq : g'.collectEvery = g.collectEvery

/-- And the store kept its versions. -/
structure Idles (g g' : Engine) (registry : Registry) : Prop extends Carries g g' registry where
  kept : g.store.Kept g'.store
  count : g'.commitsSince = g.commitsSince

theorem Carries.clock_le {registry : Registry} (h : g.Carries g' registry) :
    g.clock.last ≤ g'.clock.last := Clock.last_le_of_tick? h.clock

theorem idles_self (g : Engine) : g.Idles g g.registry where
  called := (Store.Kept.refl _).toCalled
  clock := Or.inl rfl
  registry_eq := rfl
  lastId_eq := Or.inl rfl
  collectEvery_eq := rfl
  kept := Store.Kept.refl _
  count := rfl

theorem carries_of_eq (h : g' = g) : g.Carries g' g.registry := by
  rw [h]
  exact (idles_self g).toCarries

/-! ## Read -/

/-- How the read of an active transaction ends. -/
inductive Reads (g : Engine) (t : Txn) (k : RecordKey) (a : Chains) (g' : Engine) :
    Txn → Except TxnError (Option Payload) → Prop
  | own {w : Write} (write : t.writes.get? k = some w) (engine : g' = g) :
    Reads g t k a g' t (.ok w.payload)
  | seen {found : Option Payload} (write : t.writes.get? k = none)
    (visible : ((a k).visible? t.beginTs).bind (·.payload) = found)
    (engine : g.Idles g' g.registry) :
    Reads g t k a g' { t with
      reads := t.reads.record k { readTs := t.beginTs, live := found.isSome } } (.ok found)
  | failed {t' : Txn} {e : StoreError} (write : t.writes.get? k = none)
    (status : t'.status ≠ .active) (engine : g.Idles g' (g.registry.erase t.id))
    (failed : ¬ g.store.Served g'.store) : Reads g t k a g' t' (.error (.storage e))

theorem exists_read (h : g.store.tree.Encodes a) {k : RecordKey} (hk : k.Fits)
    (hactive : t.status = .active) :
    ∃ r g' t', g.read t k = (r, g', t') ∧ g.Reads t k a g' t' r := by
  rw [read, dif_pos hactive]
  cases hw : t.writes.get? k with
  | some w => exact ⟨_, _, _, rfl, .own hw rfl⟩
  | none =>
    obtain ⟨r, s', heq, hkept, hr⟩ := Store.exists_reading (h.answers_visible? hk t.beginTs)
    rw [← Store.visible?] at heq
    simp only [heq]
    rcases hr with rfl | ⟨⟨e, rfl⟩, hserved⟩
    · exact ⟨_, _, _, rfl, .seen hw rfl
        { idles_self g with called := hkept.toCalled, kept := hkept }⟩
    · have haborted : Status.aborted ≠ .active := by decide
      exact ⟨_, _, _, rfl, .failed hw haborted
        { idles_self g with called := hkept.toCalled, kept := hkept, registry_eq := rfl } hserved⟩

/-! ## Collection -/

theorem exists_collect (h : g.store.tree.Encodes a) :
    ∃ r s', g.collect = (r, { g with store := s' }) ∧ g.store.Called s' ∧
      ((∃ n, r = .ok n) ∧ s'.tree.Encodes (a.keep fun v => !v.endedBy g.lowWatermark) ∨
        (∃ e, r = .error e) ∧ g.store.Kept s') := by
  obtain ⟨r, s', heq, hcalled, hr⟩ := Store.exists_prune h g.lowWatermark
  rw [collect, onStore, heq]
  refine ⟨_, s', rfl, hcalled, ?_⟩
  rcases hr with ⟨⟨vs, -, rfl⟩, hs⟩ | ⟨⟨e, rfl⟩, -, hkept⟩
  · exact Or.inl ⟨⟨_, rfl⟩, hs⟩
  · exact Or.inr ⟨⟨.storage e, rfl⟩, hkept⟩

/-! ## Commit -/

theorem exists_countRefusal (g : Engine) (e : TxnError) :
    ∃ statistics, g.countRefusal e = { g with statistics } := by
  cases e <;> exact ⟨_, rfl⟩

theorem exists_countCommit (g : Engine) (o : Outcome) :
    ∃ statistics, g.countCommit o = { g with statistics } := by
  rw [countCommit]
  split <;> exact ⟨_, rfl⟩

theorem last_lt_of_conflict?_eq_none (ha : a.Sound) {upper ts : Timestamp}
    (hfree : a.conflict? t upper = none) (hts : t.beginTs < ts) (k : RecordKey) (w : Write)
    (hw : t.writes.get? k = some w) : ∀ v ∈ (a k).getLast?, v.beginTs < ts := by
  intro v hv
  have hle := ((Chains.conflict?_eq_none_iff ha.linked t upper).1 hfree).2 (k, w)
    ((OrderedMap.mem_toList_iff _ _ _).2 hw) v hv
  grind

theorem versions_continue (ha : a.Sound) (ht : t.Fits) {upper ts : Timestamp}
    (hfree : a.conflict? t upper = none) (hts : t.beginTs < ts) :
    ∀ v ∈ a.versions t.writes ts, v.Fits ∧ (a v.key).Continues v := by
  intro v hv
  obtain ⟨k, w, hw, rfl⟩ := Chains.mem_versions.1 hv
  have hlast := last_lt_of_conflict?_eq_none ha hfree hts k w hw
  have hpos : 0 < ts := by
    rw [UInt64.lt_iff_toNat_lt] at hts ⊢
    exact Nat.lt_of_le_of_lt (Nat.zero_le _) hts
  exact ⟨ht.writes (k, w) ((OrderedMap.mem_toList_iff _ _ _).2 hw),
    (ha.continues_draft w hpos hlast).1⟩

/-- How the attempt at a commit ends. -/
inductive Attempts (g : Engine) (t : Txn) (a : Chains) (g' : Engine) :
    Except TxnError Outcome → Prop
  | refused {e : TxnError} (reason : g.Refuses t a g' e) (kept : g.store.Kept g'.store)
    (count : g'.commitsSince = g.commitsSince) : Attempts g t a g' (.error e)
  | readOnly {o : Outcome} (free : a.conflict? t g.clock.last = none)
    (writes : t.writes.isEmpty = true) (kept : g.store.Kept g'.store) (clock : g'.clock = g.clock)
    (count : g'.commitsSince = g.commitsSince) (ts : o.commitTs = t.beginTs)
    (idle : o.collects = false) (left : o.writes = t.writes) : Attempts g t a g' (.ok o)
  | wrote {o : Outcome} (free : a.conflict? t g.clock.last = none)
    (writes : t.writes.isEmpty = false) (tick : g.clock.tick? = some g'.clock)
    (ts : o.commitTs = g'.clock.last) (due : o.collects = true ↔ g.Due)
    (count : ¬ g.Due → g'.commitsSince = g.commitsSince + 1)
    (encodes : g'.store.tree.Encodes (a.commit t.writes g'.clock.last))
    (left : o.writes = a.numbered t.writes) : Attempts g t a g' (.ok o)

theorem exists_attempt (h : g.store.tree.Encodes a) (ha : a.Sound) (ht : t.Fits)
    (hbegin : t.beginTs ≤ g.clock.last) :
    ∃ r g', g.attempt t = (r, g') ∧ g.Carries g' g.registry ∧ g.Attempts t a g' r := by
  obtain ⟨r, s, heq, hkept, hr⟩ := Store.exists_reading (h.answers_judge ht g.clock.last)
  have hjudged : g.Carries { g with store := s } g.registry :=
    { idles_self g with called := hkept.toCalled }
  rw [attempt, heq]
  rcases hr with rfl | ⟨⟨e, rfl⟩, hs⟩
  swap
  · exact ⟨_, _, rfl, hjudged, .refused (.storage hs) hkept rfl⟩
  rw [Chains.judge]
  cases hfree : a.conflict? t g.clock.last with
  | some c => exact ⟨_, _, rfl, hjudged, .refused (.conflict hfree rfl) hkept rfl⟩
  | none =>
    simp only
    cases hwrites : t.writes.isEmpty with
    | true => exact ⟨_, _, rfl, hjudged, .readOnly hfree hwrites hkept rfl rfl rfl rfl rfl⟩
    | false =>
      simp only [Bool.false_eq_true, if_false, installDrafts]
      cases htick : g.clock.tick? with
      | none =>
        exact ⟨_, _, rfl, hjudged,
          .refused (.exhausted hfree hwrites ((Clock.tick?_eq_none_iff _).1 htick) rfl) hkept rfl⟩
      | some clock =>
        have hts : t.beginTs < clock.last := by
          have := Clock.lt_last_of_tick? htick
          grind
        have hencodes : s.tree.Encodes a := hkept.encodes h
        obtain ⟨r, s', hinstall, hcalled, hr⟩ := Store.exists_install hencodes ha.linked
          (Chains.keys_versions_nodup a t.writes clock.last)
          (versions_continue ha ht hfree hts)
        have hcalled' := hkept.toCalled.trans hcalled
        rw [Chains.versions] at hinstall
        simp only [hinstall]
        rcases hr with ⟨rfl, hencodes'⟩ | ⟨⟨e, rfl⟩, hs, hkept'⟩
        · have hdue : (g.collectEvery.any fun n => decide (n.toNat ≤ g.commitsSince + 1)) = true ↔
              g.Due := by
            rw [Due, Option.any_eq_true]
            simp only [Option.mem_def, decide_eq_true_eq]
          exact ⟨_, _, rfl, ⟨hcalled', Or.inr htick, rfl, Or.inl rfl, rfl⟩,
            .wrote hfree hwrites htick rfl hdue (fun hnot => if_neg (mt hdue.1 hnot)) hencodes' rfl⟩
        · exact ⟨_, _, rfl, ⟨hcalled', Or.inr htick, rfl, Or.inl rfl, rfl⟩,
            .refused (.storage (hkept.toCalled.not_served hs)) (hkept.trans hkept') rfl⟩

theorem exists_collectIfDue (encodes : g.store.tree.Encodes a) (o : Outcome) :
    ∃ s', g.collectIfDue o = { g with store := s' } ∧ g.store.Called s' ∧
      ((o.collects = false ∧ s'.tree.Encodes a) ∨
        o.collects = true ∧ (s'.tree.Encodes (a.keep fun v => !v.endedBy g.lowWatermark) ∨
          s'.tree.Encodes a)) := by
  rw [collectIfDue]
  cases hdue : o.collects with
  | false => exact ⟨g.store, rfl, (Store.Kept.refl _).toCalled, Or.inl ⟨rfl, encodes⟩⟩
  | true =>
    obtain ⟨r, s', hcollect, hcalled, hr⟩ := exists_collect encodes
    refine ⟨s', ?_, hcalled, Or.inr ⟨rfl, ?_⟩⟩
    · rw [if_pos rfl, hcollect]
    · exact hr.imp And.right fun hr => hr.2.encodes encodes

theorem get?_note {id : TxnId} (id' : TxnId) {r : Registration} (status : Status)
    (h : g.registry.get? id = some r) :
    ∃ r', (g.note id' status).registry.get? id = some r' ∧ r'.beginTs = r.beginTs := by
  rw [note, OrderedMap.get?_modify, h]
  split_ifs
  · exact ⟨_, rfl, rfl⟩
  · exact ⟨_, rfl, rfl⟩

/-- A commit ends the transaction, in one of the ways that `Commits` lists. -/
theorem exists_commit (h : g.store.tree.Encodes a) (ha : a.Sound) (ht : t.Fits)
    (hactive : t.status = .active) (hbegin : t.beginTs ≤ g.clock.last) :
    ∃ r g' t', g.commit t = (r, g', t') ∧ t' = t.answered a r ∧
      g.Carries g' (g.registry.erase t.id) ∧ g.Commits t a g' r := by
  obtain ⟨r, g', hattempt, ⟨hcalled, hclock, hregistry, hlast, hevery⟩, hr⟩ :=
    exists_attempt (g := g.note t.id .validating)
      (t := t.moveTo .validating (active_mayBecome_validating hactive)) h ha
      ⟨ht.reads, ht.writes⟩ hbegin
  have hcarries (statistics : Statistics) :
      g.Carries { g' with registry := g'.registry.erase t.id, statistics }
        (g.registry.erase t.id) := by
    refine ⟨hcalled, hclock, ?_, hlast, hevery⟩
    show g'.registry.erase t.id = _
    rw [hregistry]
    exact OrderedMap.erase_modify _ _ _
  rw [commit, dif_pos hactive]
  simp only [hattempt]
  cases hr with
  | @refused e reason kept count =>
    obtain ⟨statistics, hcount⟩ := exists_countRefusal g' e
    refine ⟨_, _, _, rfl, rfl, ?_, ?_⟩
    · rw [hcount]
      exact hcarries _
    · rw [hcount]
      refine .refused ?_ kept count
      cases reason with
      | conflict found clock => exact .conflict found clock
      | exhausted free writes last clock => exact .exhausted free writes last clock
      | storage failed => exact .storage failed
  | @readOnly o free writes kept clock count ts idle left =>
    obtain ⟨statistics, hcount⟩ := exists_countCommit g' o
    simp only [hcount, collectIfDue, idle, ts, Bool.false_eq_true, if_false]
    have hleft : o.writes = a.numbered t.writes :=
      left.trans (Chains.numbered_of_isEmpty a writes).symm
    refine ⟨_, _, _, rfl, ?_, hcarries _, .readOnly free writes kept clock count⟩
    rw [hleft]
    rfl
  | @wrote o free writes tick ts due count encodes left =>
    obtain ⟨statistics, hcount⟩ := exists_countCommit g' o
    obtain ⟨s', hcollect, hcalled', hs'⟩ :=
      exists_collectIfDue (g := { g' with statistics }) encodes o
    simp only [hcount, hcollect, ts, left]
    refine ⟨_, _, _, rfl, rfl,
      { hcarries statistics with called := hcalled.trans hcalled' }, ?_⟩
    rcases hs' with ⟨hdue, hencodes⟩ | ⟨hdue, hencodes | hencodes⟩
    · have hnot : ¬ g.Due := fun hd => by simp [due.2 hd] at hdue
      exact .wrote free writes tick (.early hnot (count hnot)) hencodes
    · refine .wrote free writes tick (.collected (due.1 hdue) fun id r hid => ?_) hencodes
      obtain ⟨r', hr', hbegin⟩ := get?_note t.id .validating hid
      have hr' : g'.registry.get? id = some r' := by rw [hregistry, hr']
      rw [← hbegin]
      exact lowWatermark_le hr'
    · exact .wrote free writes tick (.failed (due.1 hdue)) hencodes

end Engine

end Mvcc
