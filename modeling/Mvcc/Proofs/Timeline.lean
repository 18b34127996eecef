import Mvcc.Proofs.Recovery
import Mvcc.Proofs.Refinement
import Mvcc.Proofs.Steps

/-!
# Timestamps

Begins, commits with writes and clients draw from one clock. Whatever the order in which they do, the
timestamps that are issued ascend, and they are above all that the engine found in its store. When
the greatest one was issued, nothing is issued any more, and what needs no timestamp goes on.

* `Session.timestamps`: what a run issues, with `timestamps_run`.
* `Tree.Dates`: a property of every timestamp in a tree.
* `Store.Left`: the stores that engines leave, with what they remember.
* `Engine.Built`: the engines over them.
* `Session.Exhausted`: what is possible without a timestamp.
* `Engine.Timeline`, `Built.timeline`: the result for every run.
-/

namespace Mvcc

open Store (chainIn)

/-! ## What is issued -/

/-- Whether an operation may take a timestamp. -/
def Op.draws : Op → Bool
  | .begin | .issue | .commit _ => true
  | _ => false

namespace Session

/-- The timestamp that an operation issues with its answer. A commit without writes answers with a
timestamp that was issued before. -/
def issued? (s : Session) : Event → Option Timestamp
  | ⟨.begin, .began _ ts⟩ | ⟨.issue, .issued ts⟩ => some ts
  | ⟨.commit id, .committed ts⟩ =>
    if (s.held.get? id).any fun t => !t.writes.isEmpty then some ts else none
  | _ => none

/-- The timestamps that are issued in a run. -/
def timestamps (s : Session) : List Op → List Timestamp
  | [] => []
  | op :: rest => (s.issued? ⟨op, (s.step op).1⟩).toList ++ (s.step op).2.timestamps rest

variable {s s' : Session} {a a' : Chains} {op : Op} {r : Reply}

theorem Acts.clock_cases (hs : s.Acts s' op r) :
    s'.engine.clock = s.engine.clock ∨ s.engine.clock.tick? = some s'.engine.clock := by
  cases hs with
  | idle _ hsame => exact Or.inl (by rw [hsame])
  | tended _ engine => exact Or.inl (by rw [engine])
  | spent _ engine => exact Or.inl (by rw [engine])
  | began _ tick => exact Or.inr tick
  | issued tick => exact Or.inr tick
  | seen _ engine => exact Or.inl (by rw [engine])
  | put _ _ engine => exact Or.inl (by rw [engine])
  | refused _ _ clock => exact clock
  | aborted _ engine => exact Or.inl (by rw [engine])
  | dropped _ engine => exact Or.inl (by rw [engine])
  | released _ _ engine => exact Or.inl (by rw [engine])
  | settled _ _ engine => exact Or.inl (by rw [engine])
  | wrote _ _ tick => exact Or.inr tick

theorem Acts.clock_le (hs : s.Acts s' op r) : s.engine.clock.last ≤ s'.engine.clock.last :=
  Clock.last_le_of_tick? hs.clock_cases

theorem Acts.issued?_eq (hs : s.Acts s' op r) {ts : Timestamp} (h : s.issued? ⟨op, r⟩ = some ts) :
    s.engine.clock.tick? = some s'.engine.clock ∧ ts = s'.engine.clock.last := by
  have silent (hsilent : Event.tells ⟨op, r⟩ = false) : s.issued? ⟨op, r⟩ = none := by
    unfold issued?
    split
    · next heq => rw [heq] at hsilent; cases hsilent
    · next heq => rw [heq] at hsilent; cases hsilent
    · next heq => rw [heq] at hsilent; cases hsilent
    · rfl
  have failed (e : TxnError) : s.issued? ⟨op, .failed e⟩ = none := by cases op <;> rfl
  have done : s.issued? ⟨op, .done⟩ = none := by cases op <;> rfl
  cases hs with
  | idle hsilent => rw [silent hsilent] at h; cases h
  | tended hsilent => rw [silent hsilent] at h; cases h
  | spent => cases h
  | began _ tick => cases h; exact ⟨tick, rfl⟩
  | issued tick => cases h; exact ⟨tick, rfl⟩
  | seen => cases h
  | put => rw [done] at h; cases h
  | refused => rw [failed] at h; cases h
  | aborted => cases h
  | dropped => cases h
  | released => cases h
  | settled active writes =>
    unfold issued? at h
    simp [active.1, writes] at h
  | wrote active writes tick =>
    unfold issued? at h
    simp [active.1, writes] at h
    exact ⟨tick, h.symm⟩

theorem clock_le_run (s : Session) (ops : List Op) :
    s.engine.clock.last ≤ (s.run ops).2.engine.clock.last := by
  induction ops generalizing s with
  | nil => exact UInt64.le_refl _
  | cons op rest ih => exact UInt64.le_trans (acts_step s op).clock_le (ih _)

theorem clock_step_of_not_draws (s : Session) (h : op.draws = false) :
    (s.step op).2.engine.clock = s.engine.clock := by
  cases op with
  | begin | issue | commit => cases h
  | collect | flush => rfl
  | write id | delete id =>
    rw [step, onTxn]
    cases s.held.get? id <;> rfl
  | abort id =>
    rw [step, onTxn]
    cases s.held.get? id with
    | none => rfl
    | some t =>
      simp only [Engine.abort]
      split_ifs <;> rfl
  | drop id =>
    rw [step]
    cases s.held.get? id with
    | none => rfl
    | some t =>
      simp only [Engine.drop]
      split_ifs <;> rfl
  | read id k =>
    rw [step, onTxn]
    cases s.held.get? id with
    | none => rfl
    | some t =>
      simp only [Engine.read]
      split_ifs
      · cases t.writes.get? k with
        | some w => rfl
        | none =>
          rcases s.engine.store.visible? k t.beginTs with ⟨_ | _, st⟩ <;> rfl
      · rfl

theorem clock_run_le_draws (s : Session) (ops : List Op) :
    (s.run ops).2.engine.clock.last.toNat ≤ s.engine.clock.last.toNat + ops.countP Op.draws := by
  induction ops generalizing s with
  | nil => exact Nat.le_refl _
  | cons op rest ih =>
    have hrest := ih (s.step op).2
    have hrun : (s.run (op :: rest)).2 = ((s.step op).2.run rest).2 := rfl
    rw [hrun, List.countP_cons]
    split_ifs with hdraws
    · rcases (acts_step s op).clock_cases with he | htick
      · rw [he] at hrest
        omega
      · rw [Clock.toNat_last_of_tick? htick] at hrest
        omega
    · rw [clock_step_of_not_draws s (Bool.eq_false_iff.2 hdraws)] at hrest
      omega

/-- The timestamps of a run ascend, from above the clock as it was to the clock as it is. -/
theorem timestamps_run (s : Session) (ops : List Op) :
    (s.timestamps ops).Pairwise (· < ·) ∧ ∀ ts ∈ s.timestamps ops,
      s.engine.clock.last < ts ∧ ts ≤ (s.run ops).2.engine.clock.last := by
  induction ops generalizing s with
  | nil => exact ⟨List.Pairwise.nil, by simp [timestamps]⟩
  | cons op rest ih =>
    have hacts := acts_step s op
    obtain ⟨hascending, hwithin⟩ := ih (s.step op).2
    have hrun : (s.run (op :: rest)).2 = ((s.step op).2.run rest).2 := rfl
    have hlater : ∀ ts ∈ (s.step op).2.timestamps rest,
        s.engine.clock.last < ts ∧ ts ≤ (s.run (op :: rest)).2.engine.clock.last := by
      intro ts hts
      obtain ⟨hlt, hle⟩ := hwithin ts hts
      have hclock := hacts.clock_le
      exact ⟨by grind, hrun ▸ hle⟩
    unfold timestamps
    cases hissued : s.issued? ⟨op, (s.step op).1⟩ with
    | none => exact ⟨hascending, hlater⟩
    | some ts =>
      obtain ⟨htick, rfl⟩ := hacts.issued?_eq hissued
      refine ⟨List.pairwise_cons.2 ⟨fun ts hts => (hwithin ts hts).1, hascending⟩, ?_⟩
      intro ts hts
      rcases List.mem_cons.1 hts with rfl | hts
      · exact ⟨Clock.lt_last_of_tick? htick, hrun ▸ clock_le_run _ rest⟩
      · exact hlater ts hts

end Session

/-! ## What is stored -/

/-- Every version in a tree begins and ends at timestamps with a property. -/
def Tree.Dates (t : Tree) (p : Timestamp → Prop) : Prop :=
  ∀ k : RecordKey, k.Fits →
    ∃ c, chainIn t k = .ok c ∧ ∀ v ∈ c, p v.beginTs ∧ ∀ e ∈ v.endTs, p e

theorem Tree.Encodes.dates {t : Tree} {a : Chains} (h : t.Encodes a) (ha : a.Sound)
    {p : Timestamp → Prop} (hp : ∀ k, ∀ v ∈ a k, p v.beginTs) : t.Dates p := by
  intro k hk
  refine ⟨a k, Store.chainIn_eq h hk, fun v hv => ⟨hp k v hv, fun e he => ?_⟩⟩
  obtain ⟨-, u, hu, rfl⟩ := (ha.linked k).exists_next hv he
  exact hp k u hu

theorem Chains.begin_of_mem_commit {a : Chains} {ws : WriteSet} {ts : Timestamp} {k : RecordKey}
    {v : Version} (hv : v ∈ a.commit ws ts k) : v.beginTs = ts ∨ ∃ u ∈ a k, v.beginTs = u.beginTs := by
  rw [commit_apply] at hv
  cases hw : ws.get? k with
  | none =>
    rw [hw] at hv
    exact Or.inr ⟨v, hv, rfl⟩
  | some w =>
    rw [hw] at hv
    rcases Chain.mem_extend hv with rfl | ⟨u, hu, -, hbegin⟩
    · exact Or.inl rfl
    · exact Or.inr ⟨u, hu, hbegin⟩

namespace Session

variable {s s' : Session} {a a' : Chains} {op : Op} {r : Reply}

theorem Acts.maxTs_cases (hs : s.Acts s' op r) :
    s'.engine.store.maxTs = s.engine.store.maxTs ∨
      s'.engine.store.maxTs = max s.engine.store.maxTs s'.engine.clock.last := by
  cases hs with
  | idle _ hsame => exact Or.inl (by rw [hsame])
  | tended _ _ maxTs => exact Or.inl maxTs
  | spent _ engine => exact Or.inl (by rw [engine])
  | began _ _ engine => exact Or.inl (by rw [engine])
  | issued _ engine => exact Or.inl (by rw [engine])
  | seen _ _ store => exact Or.inl store.maxTs_eq
  | put _ _ engine => exact Or.inl (by rw [engine])
  | refused _ _ _ _ store => exact Or.inl store.maxTs_eq
  | aborted _ engine => exact Or.inl (by rw [engine])
  | dropped _ engine => exact Or.inl (by rw [engine])
  | released _ _ engine => exact Or.inl (by rw [engine])
  | settled _ _ _ store => exact Or.inl store.maxTs_eq
  | wrote _ _ _ _ _ _ maxTs => exact Or.inr maxTs

theorem Acts.maxTs_le (hs : s.Acts s' op r) : s.engine.store.maxTs ≤ s'.engine.store.maxTs := by
  rcases hs.maxTs_cases with h | h
  · rw [h]
    exact UInt64.le_refl _
  · rw [h]
    exact Timestamp.le_max_left _ _

theorem Acts.clock_le_maxTs {id : TxnId} {t : Txn} {ts : Timestamp}
    (hs : s.Acts s' (.commit id) (.committed ts)) (active : s.Active id t)
    (writes : t.writes.isEmpty = false) : s'.engine.clock.last ≤ s'.engine.store.maxTs := by
  cases hs with
  | idle silent => cases silent
  | tended silent => cases silent
  | settled active' writes' =>
    obtain rfl := Option.some.inj (active.1.symm.trans active'.1)
    simp [writes] at writes'
  | wrote _ _ _ _ _ _ maxTs =>
    rw [maxTs]
    exact Timestamp.le_max_right _ _

/-- The store remembers a timestamp that no version begins after. -/
def Remembers (s : Session) (a : Chains) : Prop :=
  ∀ k, ∀ v ∈ a k, v.beginTs ≤ s.engine.store.maxTs

theorem Remembers.next (h : s.Remembers a) (hm : s.Moves a s' op r a') (hs : s.Acts s' op r) :
    s'.Remembers a' := by
  have hmax := hs.maxTs_le
  have same : s'.Remembers a := fun k v hv => UInt64.le_trans (h k v hv) hmax
  cases hm with
  | idle | began | own | seen | put | ended | settled => exact same
  | @committed id t _ active free writes tick engine leaves =>
    have hcommit : s'.Remembers (a.commit t.writes s'.engine.clock.last) := by
      intro k v hv
      rcases Chains.begin_of_mem_commit hv with he | ⟨u, hu, he⟩
      · rw [he]
        exact hs.clock_le_maxTs active writes
      · rw [he]
        exact same k u hu
    cases leaves with
    | early => exact hcommit
    | failed => exact hcommit
    | collected => exact fun k v hv => hcommit k v (List.mem_filter.1 hv).1
  | collected => exact fun k v hv => same k v (List.mem_filter.1 hv).1

theorem Stands.exists_run (h : s.Stands a) (hr : s.Remembers a) (ops : List Op)
    (hops : ∀ op ∈ ops, op.Fits) :
    ∃ a', (s.run ops).2.Stands a' ∧ (s.run ops).2.Remembers a' := by
  induction ops generalizing s a with
  | nil => exact ⟨a, h, hr⟩
  | cons op rest ih =>
    have hop := hops op List.mem_cons_self
    obtain ⟨a₁, hm⟩ := exists_moves h hop
    exact ih (hm.stands h hop) (hr.next hm (acts_step s op)) fun op' hop' =>
      hops op' (List.mem_cons_of_mem _ hop')

theorem Acts.maxTs_le_clock (hs : s.Acts s' op r)
    (h : s.engine.store.maxTs ≤ s.engine.clock.last) :
    s'.engine.store.maxTs ≤ s'.engine.clock.last := by
  have hle := UInt64.le_trans h hs.clock_le
  rcases hs.maxTs_cases with he | he
  · rw [he]
    exact hle
  · rw [he, Timestamp.max_le_iff]
    exact ⟨hle, UInt64.le_refl _⟩

theorem maxTs_le_run (h : s.engine.store.maxTs ≤ s.engine.clock.last) (ops : List Op) :
    (s.run ops).2.engine.store.maxTs ≤ (s.run ops).2.engine.clock.last := by
  induction ops generalizing s with
  | nil => exact h
  | cons op rest ih => exact ih ((acts_step s op).maxTs_le_clock h)

end Session

/-! ## Engines over what others left -/

/-- The stores that engines leave: one without versions, that of an engine that ran for a while, or
one that is found again on a medium. -/
inductive Store.Left : Store → Prop
  | empty {s : Store} (tree : s.tree = ∅) : Left s
  | run {s : Store} (left : Left s) (clock : Clock) (every : Option UInt64) {ops : List Op}
    (fits : ∀ op ∈ ops, op.Fits) : Left ((Engine.withClock s clock every).after ops).engine.store
  | recovered {s s' : Store} (left : Left s) {m : Medium} (tree : m.tree = s.tree)
    (found : (Store.recover m).1 = .ok s') : Left s'

theorem Store.tree_of_recover {m : Medium} {s : Store} (h : (Store.recover m).1 = .ok s) :
    s.tree = m.tree := by
  have hread : (m.read Probe.versions).2.tree = m.tree := Medium.tree_read m _
  unfold Store.recover at h
  rcases hr : m.read Probe.versions with ⟨_ | found, m'⟩
  all_goals rw [hr] at h hread
  · cases h
  · cases h
    exact hread

theorem Store.openIn?_memory (site : Site) (name : String) :
    Store.openIn? .memory site name = (Store.recover (Medium.ofTree ∅)).1 := by
  -- memory keeps no trees, so the one that is opened is new
  have hempty : (((∅ : Trees).insertIfNew name ∅).get? name).getD ∅ = ∅ := by
    rw [OrderedMap.get?_insertIfNew, if_pos rfl]
    rfl
  show (Store.recover (Medium.ofTree ((((∅ : Trees).insertIfNew name ∅).get? name).getD ∅))).1 = _
  rw [hempty]

theorem Store.Left.exists_chains {s : Store} (h : s.Left) :
    ∃ a, s.tree.Encodes a ∧ a.Sound ∧ ∀ k, ∀ v ∈ a k, v.beginTs ≤ s.maxTs := by
  induction h with
  | empty tree =>
    rw [tree]
    exact ⟨fun _ => [], Tree.encodes_empty, Chains.sound_empty, by simp⟩
  | @run s left clock every ops fits ih =>
    obtain ⟨a, hencodes, hsound, hmax⟩ := ih
    have hstands : (Engine.withClock s clock every).session.Stands a :=
      Session.stands_session hencodes hsound
    obtain ⟨a', hstands', hmax'⟩ := hstands.exists_run hmax ops fits
    exact ⟨a', hstands'.encodes, hstands'.sound, hmax'⟩
  | @recovered s s' left m tree found ih =>
    obtain ⟨a, hencodes, hsound, -⟩ := ih
    obtain ⟨r, m', heq, hr⟩ := Store.exists_recover (tree ▸ hencodes)
    rw [heq] at found
    rcases hr with ⟨s₁, rfl, htree, hmax⟩ | ⟨⟨e, rfl⟩, -⟩
    · cases found
      refine ⟨a, htree ▸ tree ▸ hencodes, hsound, fun k v hv => ?_⟩
      have hlast := (hmax _).1 (UInt64.le_refl _) k v hv
      unfold Version.lastTs at hlast
      cases he : v.endTs with
      | none => simpa [he] using hlast
      | some e =>
        have hlt := ((hsound.linked k).exists_next hv he).1
        rw [he] at hlast
        exact UInt64.le_trans (UInt64.le_of_lt hlt) hlast
    · cases found

namespace Engine

/-- The engines that are built over a store that others left, and the timestamp that each is told to
start from. -/
inductive Built : Engine → Timestamp → Prop
  | inMemory : Built inMemory 0
  | ofStore {s : Store} (left : s.Left) : Built (ofStore s) 0
  | opened {settings : Settings} {site : Site} {g : Engine} {s : Store}
    (opened : open? settings site = .ok g) (left : s.Left) (tree : g.store.tree = s.tree) :
    Built g settings.initialTs
  /-- What `open?` builds, on a medium that may fail at any call after the scan that found the store. -/
  | recovered {s s' : Store} {m : Medium} (left : s.Left) (tree : m.tree = s.tree)
    (found : (Store.recover m).1 = .ok s') (floor : Timestamp) (every : Option UInt64) :
    Built (withClock s' { last := max s'.maxTs floor } every) floor

variable {floor : Timestamp} {g : Engine}

theorem exists_of_open? {settings : Settings} {site : Site} (h : open? settings site = .ok g) :
    ∃ (m : Medium) (s : Store), (Store.recover m).1 = .ok s ∧ m.tree = s.tree ∧
      g = withClock s { last := max s.maxTs settings.initialTs } settings.collectEvery := by
  unfold open? at h
  cases hvalid : settings.validate.mapError TxnError.settings with
  | error e =>
    rw [hvalid] at h
    cases h
  | ok u =>
    cases hstore : Store.openIn? settings.backend site settings.treeName with
    | error e =>
      rw [hvalid, hstore] at h
      cases h
    | ok s =>
      rw [hvalid, hstore] at h
      cases h
      unfold Store.openIn? at hstore
      cases hdb : Database.open? settings.backend site with
      | error e =>
        rw [hdb] at hstore
        cases hstore
      | ok db =>
        rw [hdb] at hstore
        exact ⟨_, s, hstore, (Store.tree_of_recover hstore).symm, rfl⟩

/-- An engine starts from what its store remembers and from what it was told. -/
theorem Built.exists_start (h : g.Built floor) :
    ∃ (s : Store) (clock : Clock) (every : Option UInt64), s.Left ∧
      clock.last = max s.maxTs floor ∧ g = withClock s clock every := by
  cases h with
  | inMemory => exact ⟨Store.empty, _, none, .empty rfl, (Store.max_zero _).symm, rfl⟩
  | @ofStore s left => exact ⟨s, _, none, left, (Store.max_zero _).symm, rfl⟩
  | opened opened left tree =>
    obtain ⟨m, s', hrecover, htree, rfl⟩ := exists_of_open? opened
    exact ⟨s', _, _, .recovered left (htree.trans tree) hrecover, rfl, rfl⟩
  | recovered left tree found _ every => exact ⟨_, _, every, .recovered left tree found, rfl, rfl⟩

end Engine

/-! ## Without a timestamp -/

namespace Session

variable {s : Session} {a : Chains} {id : TxnId} {t : Txn}

/-- Validation finds nothing in the way of a commit, when no call fails. -/
def Unopposed (s : Session) (t : Txn) : Prop :=
  (({ medium := Medium.ofTree s.engine.store.tree } : Store).reading
    (Probe.conflict? t.reads t.writes t.beginTs s.engine.clock.last)).1 = .ok none

/-- Clock and versions are as they were. -/
structure Rests (s s' : Session) : Prop where
  clock_eq : s'.engine.clock = s.engine.clock
  tree_eq : s'.engine.store.tree = s.engine.store.tree
  maxTs_eq : s'.engine.store.maxTs = s.engine.store.maxTs

/-- What is possible when every timestamp was issued. -/
structure Exhausted (s : Session) : Prop where
  begin : (s.step .begin).1 = .failed (.exhausted Timestamp.greatest) ∧ s.Rests (s.step .begin).2
  issue : (s.step .issue).1 = .failed (.exhausted Timestamp.greatest) ∧ s.Rests (s.step .issue).2
  commit : ∀ id t, s.Active id t → t.writes.isEmpty = false → s.Unopposed t →
    s.engine.store.Served (s.step (.commit id)).2.engine.store →
      (s.step (.commit id)).1 = .failed (.exhausted Timestamp.greatest) ∧
        s.Rests (s.step (.commit id)).2
  readOnly : ∀ id t, s.Active id t → t.writes.isEmpty = true → s.Unopposed t →
    s.engine.store.Served (s.step (.commit id)).2.engine.store →
      (s.step (.commit id)).1 = .committed t.beginTs ∧ s.Rests (s.step (.commit id)).2
  abort : ∀ id t, s.Active id t →
    (s.step (.abort id)).1 = .done ∧ s.Rests (s.step (.abort id)).2

theorem Stands.conflict?_eq_none (h : s.Stands a) (active : s.Active id t) (free : s.Unopposed t) :
    a.conflict? t s.engine.clock.last = none := by
  have hans := Store.reading_ofTree (h.encodes.answers_conflict? (h.fits id t active)
    s.engine.clock.last)
  unfold Unopposed at free
  rw [hans] at free
  exact Except.ok.inj free

theorem Stands.exhausted (h : s.Stands a) (last : s.engine.clock.last = Timestamp.greatest) :
    s.Exhausted := by
  have htick := (Clock.tick?_eq_none_iff s.engine.clock).2 last
  have hreply : Reply.failed (.exhausted s.engine.clock.last) =
      .failed (.exhausted Timestamp.greatest) := by rw [last]
  refine ⟨?begin, ?issue, fun id t active writes free served => ?commit,
    fun id t active writes free served => ?readOnly, fun id t active => ?abort⟩
  case begin =>
    rw [step, Engine.begin, htick]
    exact ⟨hreply, rfl, rfl, rfl⟩
  case issue =>
    rw [step, onEngine, Engine.issue, htick]
    exact ⟨hreply, rfl, rfl, rfl⟩
  case commit =>
    have hfree := h.conflict?_eq_none active free
    obtain ⟨r, g', heq, -, hr⟩ := exists_step_commit h active
    rw [heq] at served ⊢
    cases hr with
    | refused reason kept =>
      cases reason with
      | conflict found => rw [hfree] at found; cases found
      | exhausted _ _ _ clock => exact ⟨hreply, clock, kept.tree_eq, kept.maxTs_eq⟩
      | storage failed => exact absurd served failed
    | readOnly _ writes' => rw [writes] at writes'; cases writes'
    | wrote _ _ tick => rw [htick] at tick; cases tick
  case readOnly =>
    have hfree := h.conflict?_eq_none active free
    obtain ⟨r, g', heq, -, hr⟩ := exists_step_commit h active
    rw [heq] at served ⊢
    cases hr with
    | refused reason kept =>
      cases reason with
      | conflict found => rw [hfree] at found; cases found
      | exhausted _ writes' => rw [writes] at writes'; cases writes'
      | storage failed => exact absurd served failed
    | readOnly _ _ kept clock => exact ⟨rfl, clock, kept.tree_eq, kept.maxTs_eq⟩
    | wrote _ writes' => rw [writes] at writes'; cases writes'
  case abort =>
    rw [step, onTxn, active.1]
    simp only [Engine.abort, dif_pos active.2]
    exact ⟨rfl, rfl, rfl, rfl⟩

end Session

/-! ## Runs -/

namespace Engine

open Session

/-- What is true of the timestamps of a run. -/
structure Timeline (g : Engine) (floor : Timestamp) (ops : List Op) : Prop where
  ascending : (g.session.timestamps ops).Pairwise (· < ·)
  above : ∀ ts ∈ g.session.timestamps ops, floor < ts ∧ g.store.tree.Dates (· < ts)
  ahead : (g.after ops).engine.store.maxTs ≤ (g.after ops).engine.clock.last ∧
    (g.after ops).engine.store.tree.Dates (· ≤ (g.after ops).engine.clock.last)
  /-- Who begins after a commit with writes has a later snapshot. -/
  later : ∀ pre id post ts t id' ts', ops = pre ++ .commit id :: post →
    (g.after pre).held.get? id = some t → t.writes.isEmpty = false →
      ((g.after pre).step (.commit id)).1 = .committed ts →
        ((g.after ops).step .begin).1 = .began id' ts' → ts < ts'
  spent : Timestamp.greatest ∈ g.session.timestamps ops →
    (g.after ops).engine.clock.last = Timestamp.greatest ∧ (g.after ops).Exhausted

variable {floor : Timestamp} {g : Engine}

theorem Timeline.later_of_commit (g : Engine) {pre post : List Op} {id id' : TxnId}
    {t : Txn} {ts ts' : Timestamp} (hget : (g.after pre).held.get? id = some t)
    (writes : t.writes.isEmpty = false)
    (committed : ((g.after pre).step (.commit id)).1 = .committed ts)
    (began : ((g.after (pre ++ .commit id :: post)).step .begin).1 = .began id' ts') : ts < ts' := by
  have hissued : (g.after pre).issued? ⟨.commit id, ((g.after pre).step (.commit id)).1⟩ =
      some ts := by
    rw [committed]
    unfold issued?
    simp [hget, writes]
  obtain ⟨-, rfl⟩ := (acts_step (g.after pre) (.commit id)).issued?_eq hissued
  have hnext : (g.after (pre ++ .commit id :: post)) =
      (((g.after pre).step (.commit id)).2.run post).2 := by
    rw [after_append]
    rfl
  rw [hnext] at began
  have hbegan := (acts_step _ .begin).issued?_eq (congrArg (fun r => issued? _ ⟨.begin, r⟩) began)
  have hlt := Clock.lt_last_of_tick? hbegan.1
  have hle := clock_le_run ((g.after pre).step (.commit id)).2 post
  rw [← hbegan.2] at hlt
  grind

/-- Whatever an engine is built over and however its clients take turns, timestamps ascend from
above everything that was there before, and nothing that is stored is ahead of the clock. -/
theorem Built.timeline (h : g.Built floor) (ops : List Op) (fits : ∀ op ∈ ops, op.Fits) :
    g.Timeline floor ops := by
  obtain ⟨s, clock, every, left, hclock, rfl⟩ := h.exists_start
  obtain ⟨a, hencodes, hsound, hbegin⟩ := left.exists_chains
  have hmax : s.maxTs ≤ clock.last := hclock ▸ Timestamp.le_max_left _ _
  have hfloor : floor ≤ clock.last := hclock ▸ Timestamp.le_max_right _ _
  obtain ⟨hascending, hwithin⟩ := timestamps_run (withClock s clock every).session ops
  have hstands : (withClock s clock every).session.Stands a := stands_session hencodes hsound
  obtain ⟨a', hstands', hbegin'⟩ := hstands.exists_run hbegin ops fits
  have hmax' := maxTs_le_run (s := (withClock s clock every).session) hmax ops
  refine ⟨hascending, fun ts hts => ⟨?floor, ?found⟩, ⟨hmax', ?stored⟩, ?later, fun hspent => ?spent⟩
  case floor =>
    have hlt : clock.last < ts := (hwithin ts hts).1
    grind
  case found =>
    refine hencodes.dates hsound fun k v hv => ?_
    have hle := hbegin k v hv
    have hlt : clock.last < ts := (hwithin ts hts).1
    grind
  case stored =>
    exact hstands'.encodes.dates hstands'.sound fun k v hv =>
      UInt64.le_trans (hbegin' k v hv) hmax'
  case later =>
    rintro pre id post ts t id' ts' rfl hget writes committed began
    exact Timeline.later_of_commit _ hget writes committed began
  case spent =>
    have hle := (hwithin _ hspent).2
    have hlast : ((withClock s clock every).after ops).engine.clock.last = Timestamp.greatest := by
      refine UInt64.le_antisymm ?_ hle
      rw [UInt64.le_iff_toNat_le]
      exact Nat.le_of_lt_succ (UInt64.toNat_lt _)
    exact ⟨hlast, hstands'.exhausted hlast⟩

/-- An engine that is told to start two timestamps from the end. A transaction takes one and a
client the other, and nothing is left for the commit. -/
theorem timeline_exhausted :
    let settings : Settings := { initialTs := Timestamp.greatest - 2 }
    let ops : List Op := [.begin, .write ⟨1⟩ ⟨"t", .int 1⟩ [7], .issue]
    ∃ g, open? settings Site.fresh = .ok g ∧ g.Built settings.initialTs ∧
      (∀ op ∈ ops, op.Fits) ∧ g.Timeline settings.initialTs ops ∧
      Timestamp.greatest ∈ g.session.timestamps ops ∧
      ((g.after ops).step (.commit ⟨1⟩)).1 = .failed (.exhausted Timestamp.greatest) := by
  intro settings ops
  have fits : ∀ op ∈ ops, op.Fits := by
    simp [ops, Op.Fits, Op.fits_key, UInt64.size]
  let found : Store := { medium := { tree := ∅, tally := { iterate := 1 } } }
  have opened : open? settings Site.fresh =
      .ok (withClock found { last := Timestamp.greatest - 2 }) :=
    open?_eq (by decide +kernel) ((Store.openIn?_memory _ _).trans rfl)
  have built : Built _ settings.initialTs := .opened opened (@Store.Left.empty found rfl) rfl
  refine ⟨_, opened, built, fits, built.timeline ops fits, ?_, ?_⟩
  · decide +kernel
  · decide +kernel

end Engine

end Mvcc
