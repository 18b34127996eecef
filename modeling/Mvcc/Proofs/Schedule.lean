import Mvcc.Proofs.ChainInvariant
import Mvcc.Proofs.Watermark

/-!
# When versions are collected without being asked

An engine that is told to collects after every so many commits with writes. The count is kept with
the commit and set back before the collection runs, so neither what is refused, nor what writes
nothing, nor a collection that fails or is asked for shifts it: what is due is decided by how many
commits with writes there were.

* `Session.Counts`: the operations that count, with `Records.writeCount_next`.
* `Engine.quiet`, `Engine.Beside`, `exists_commit_beside`: a commit beside the same commit on an
  engine that does not collect on its own.
* `Store.Reaped`, `Tree.Encodes.reaped`: what a collection that is due makes of what the commit left.
* `Engine.Scheduled`, `Pristine.scheduled`: the result for every run of an engine without versions.
-/

namespace Mvcc

open Session

/-! ## What counts -/

namespace Session

/-- A commit with writes took place. -/
def Counts (s : Session) (op : Op) (r : Reply) : Prop :=
  ∃ id t ts, op = .commit id ∧ r = .committed ts ∧ s.Active id t ∧ t.writes.isEmpty = false

variable {s s' : Session} {op : Op} {r : Reply}

theorem Acts.commitsSince_eq (hs : s.Acts s' op r) (hnot : ¬ s.Counts op r) :
    s'.engine.commitsSince = s.engine.commitsSince := by
  cases hs with
  | idle _ hsame => rw [hsame]
  | tended _ engine => rw [engine]
  | spent _ engine => rw [engine]
  | began _ _ engine => rw [engine]
  | issued _ engine => rw [engine]
  | seen _ engine => rw [engine]
  | put _ _ engine => rw [engine]
  | refused _ _ _ engine => rw [engine]
  | aborted _ engine => rw [engine]
  | dropped _ engine => rw [engine]
  | released _ _ engine => rw [engine]
  | settled _ _ engine => rw [engine]
  | wrote active writes => exact absurd ⟨_, _, _, rfl, rfl, active, writes⟩ hnot

end Session

namespace Trace

variable {tr : Trace} {s : Session} {op : Op}

theorem Records.writeCount_next (h : tr.Records s) :
    (s.Counts op (s.step op).1 →
      (tr ++ [Event.mk op (s.step op).1]).writeCount = tr.writeCount + 1) ∧
    (¬ s.Counts op (s.step op).1 →
      (tr ++ [Event.mk op (s.step op).1]).writeCount = tr.writeCount) := by
  constructor
  · rintro ⟨id, t, ts, rfl, hreply, active, writes⟩
    have hwrote : (tr.commitOf t id ts).wrote = true := by simp [h.wrote_commitOf active, writes]
    rw [hreply, writeCount, h.commits_commit active, List.filter_append, List.length_append]
    simp [hwrote, writeCount]
  · intro hnot
    cases hcommit : (Event.mk op (s.step op).1).commit? tr with
    | none => rw [writeCount, commits_of_silent tr _ hcommit, writeCount]
    | some c =>
      obtain ⟨id, ts, rfl, hreply, -⟩ := Event.exists_of_commit? hcommit
      obtain ⟨t, active⟩ := active_of_committed hreply
      have writes : t.writes.isEmpty = true := by
        by_contra hwrites
        exact hnot ⟨id, t, ts, rfl, hreply, active, by simpa using hwrites⟩
      have hwrote : (tr.commitOf t id ts).wrote = false := by simp [h.wrote_commitOf active, writes]
      rw [hreply, writeCount, h.commits_commit active, List.filter_append, List.length_append]
      simp [hwrote, writeCount]

end Trace

/-! ## A commit and the collection after it -/

namespace Engine

/-- The engine, when it does not collect on its own. -/
def quiet (g : Engine) : Engine := { g with collectEvery := none }

/-- Whether the commit of a transaction makes a collection due. -/
def dueAfter (g : Engine) (t : Txn) : Bool :=
  !t.writes.isEmpty && g.collectEvery.any fun n => decide (n.toNat ≤ g.commitsSince + 1)

/-- The count after the commit of a transaction. -/
def countAfter (g : Engine) (t : Txn) : Nat :=
  if t.writes.isEmpty then g.commitsSince
  else if g.dueAfter t then 0 else g.commitsSince + 1

theorem dueAfter_iff {g : Engine} {t : Txn} (writes : t.writes.isEmpty = false) :
    g.dueAfter t = true ↔ g.Due := by
  rw [dueAfter, Due, writes, Bool.not_false, Bool.true_and, Option.any_eq_true]
  simp only [Option.mem_def, decide_eq_true_eq]

/-- An attempt at a commit, and the same attempt on an engine that does not collect on its own. -/
inductive Beside (g : Engine) (t : Txn) : Except TxnError Outcome × Engine →
    Except TxnError Outcome × Engine → Prop
  | refused {e : TxnError} {g' : Engine} (registry : g'.registry = g.registry)
    (count : g'.commitsSince = g.commitsSince) : Beside g t (.error e, g') (.error e, g'.quiet)
  | done {o : Outcome} {g' : Engine} (count' : Nat) (registry : g'.registry = g.registry)
    (due : o.collects = g.dueAfter t) (count : g'.commitsSince = g.countAfter t) :
    Beside g t (.ok o, g')
      (.ok { o with collects := false }, { g'.quiet with commitsSince := count' })

variable {g : Engine} {t : Txn}

theorem beside_installDrafts (g : Engine) (drafts : OrderedMap RecordKey Draft)
    (writes : t.writes.isEmpty = false) :
    g.Beside t (g.installDrafts drafts) (g.quiet.installDrafts drafts) := by
  have hdue : (g.collectEvery.any fun n => decide (n.toNat ≤ g.commitsSince + 1)) =
      g.dueAfter t := by simp [dueAfter, writes]
  rw [installDrafts, installDrafts, show g.quiet.clock = g.clock from rfl,
    show g.quiet.store = g.store from rfl]
  cases g.clock.tick? with
  | none => exact .refused rfl rfl
  | some clock =>
    simp only
    rcases hr : g.store.install (drafts.toList.map fun e => e.2.version e.1 clock.last) with
      ⟨e | ⟨⟩, store⟩
    · simp only [hr]
      exact .refused rfl rfl
    · simp only [hr, hdue]
      refine .done (g.commitsSince + 1) rfl rfl ?_
      simp [countAfter, writes]

theorem beside_attempt (g : Engine) (t : Txn) : g.Beside t (g.attempt t) (g.quiet.attempt t) := by
  have hsuits : ∀ j, (g.store.reading (Probe.judge t g.clock.last)).1 = .ok j →
      Judgement.Suits t j := fun j hj => Probe.yields_judge t g.clock.last _ _ j hj
  rw [attempt, attempt, show g.quiet.clock = g.clock from rfl,
    show g.quiet.store = g.store from rfl]
  rcases hr : g.store.reading (Probe.judge t g.clock.last) with ⟨_ | _ | _ | drafts, store⟩
  all_goals rw [hr] at hsuits
  · exact .refused rfl rfl
  · exact .refused rfl rfl
  · have writes : t.writes.isEmpty = true := hsuits _ rfl
    refine .done g.commitsSince rfl ?_ ?_ <;> simp [dueAfter, countAfter, writes]
  · obtain ⟨writes, -⟩ := hsuits _ rfl
    have hinstall := beside_installDrafts { g with store } drafts writes
    change Beside g t (({ g with store } : Engine).installDrafts drafts)
      (({ g with store } : Engine).quiet.installDrafts drafts)
    generalize ({ g with store } : Engine).installDrafts drafts = x at hinstall ⊢
    generalize ({ g with store } : Engine).quiet.installDrafts drafts = y at hinstall ⊢
    cases hinstall with
    | refused registry count => exact .refused registry count
    | done count' registry due count => exact .done count' registry due count

theorem lowWatermark_note {g' : Engine} {id i : TxnId} {status : Status} {r : Registration}
    (hr : g.registry.get? i = some r) (h : g'.registry = (g.note id status).registry) :
    g'.lowWatermark = g.lowWatermark := by
  have hbegins : g'.registry.values.map (·.beginTs) = g.registry.values.map (·.beginTs) := by
    rw [h]
    simp only [note, OrderedMap.modify, OrderedMap.mapValues, OrderedMap.values, List.map_map]
    refine List.map_congr_left fun e he => ?_
    simp only [Function.comp_apply]
    split_ifs <;> rfl
  have hne : g.registry.values.map (·.beginTs) ≠ [] := by
    have hmem := (OrderedMap.mem_toList_iff _ _ _).2 hr
    simp only [OrderedMap.values, ne_eq, List.map_eq_nil_iff]
    exact List.ne_nil_of_mem hmem
  obtain ⟨low, hlow⟩ := Option.ne_none_iff_exists'.1 (mt List.min?_eq_none_iff.1 hne)
  rw [lowWatermark, lowWatermark, hbegins, hlow]
  rfl

/-- A commit ends as it would without the collection, and the collection that is due runs on what
the commit left. -/
theorem exists_commit_beside (hactive : t.status = .active) {i : TxnId} {r : Registration}
    (hr : g.registry.get? i = some r) :
    ∃ x g' h t', g.commit t = (x, g', t') ∧ g.quiet.commit t = (x, h, t') ∧
      ((∃ e, x = .error e) ∧ g'.store = h.store ∨
        (∃ ts, x = .ok ts) ∧ g'.commitsSince = g.countAfter t ∧
          g'.store = if g.dueAfter t then (h.store.prune g.lowWatermark).2 else h.store) := by
  have hbeside := (g.note t.id .validating).beside_attempt
    (t.moveTo .validating (active_mayBecome_validating hactive))
  rw [commit, commit, dif_pos hactive, dif_pos hactive]
  simp only [show g.quiet.note t.id .validating = (g.note t.id .validating).quiet from rfl]
  generalize (g.note t.id .validating).attempt _ = x at hbeside ⊢
  generalize (g.note t.id .validating).quiet.attempt _ = y at hbeside ⊢
  cases hbeside with
  | @refused e g' registry count =>
    refine ⟨_, _, _, _, rfl, rfl, Or.inl ⟨⟨e, rfl⟩, ?_⟩⟩
    cases e <;> rfl
  | @done o g' count' registry due count =>
    obtain ⟨statistics, hcount⟩ := exists_countCommit g' o
    obtain ⟨statistics', hcount'⟩ := exists_countCommit { g'.quiet with commitsSince := count' }
      { o with collects := false }
    have hlow : ({ g' with statistics } : Engine).lowWatermark = g.lowWatermark :=
      lowWatermark_note hr registry
    refine ⟨_, _, _, _, rfl, rfl, Or.inr ⟨⟨_, rfl⟩, ?_, ?_⟩⟩
    · show ((g'.countCommit o).collectIfDue o).commitsSince = _
      obtain ⟨store, hcollect, -⟩ := collectIfDue_eq (g'.countCommit o) o
      rw [hcollect, hcount]
      exact count
    · show ((g'.countCommit o).collectIfDue o).store =
        if g.dueAfter t then
          ((({ g'.quiet with commitsSince := count' } : Engine).countCommit
            { o with collects := false }).store.prune g.lowWatermark).2
        else (({ g'.quiet with commitsSince := count' } : Engine).countCommit
            { o with collects := false }).store
      have hdue : o.collects = g.dueAfter t := due
      rw [hcount, hcount', collectIfDue, ← hdue, ← hlow]
      cases o.collects <;> rfl

end Engine

namespace Session

variable {s : Session} {a : Chains} {id : TxnId} {t : Txn}

/-- The session, when its engine does not collect on its own. -/
def quiet (s : Session) : Session := { s with engine := s.engine.quiet }

/-- A commit ends as it would without the collection. Where it counts and the number is reached the
count starts anew, and the collection runs on what the commit left. -/
structure Charged (s : Session) (id : TxnId) : Prop where
  answer : (s.step (.commit id)).1 = (s.quiet.step (.commit id)).1
  uncounted : ¬ s.Counts (.commit id) (s.step (.commit id)).1 →
    (s.step (.commit id)).2.engine.store = (s.quiet.step (.commit id)).2.engine.store
  early : s.Counts (.commit id) (s.step (.commit id)).1 → ¬ s.engine.Due →
    (s.step (.commit id)).2.engine.commitsSince = s.engine.commitsSince + 1 ∧
      (s.step (.commit id)).2.engine.store = (s.quiet.step (.commit id)).2.engine.store
  due : s.Counts (.commit id) (s.step (.commit id)).1 → s.engine.Due →
    (s.step (.commit id)).2.engine.commitsSince = 0 ∧
      (s.step (.commit id)).2.engine.store =
        ((s.quiet.step (.commit id)).2.engine.store.prune s.engine.lowWatermark).2

theorem charged_of_not_active (hactive : ∀ t, ¬ s.Active id t)
    (answer : (s.step (.commit id)).1 = (s.quiet.step (.commit id)).1)
    (store : (s.step (.commit id)).2.engine.store = (s.quiet.step (.commit id)).2.engine.store) :
    s.Charged id := by
  have hno : ∀ r : Reply, ¬ s.Counts (.commit id) r := by
    rintro r ⟨i, t, ts, hop, -, active, -⟩
    cases hop
    exact hactive t active
  exact ⟨answer, fun _ => store, fun hc => absurd hc (hno _), fun hc => absurd hc (hno _)⟩

theorem counts_commit_iff (active : s.Active id t) {x : Except TxnError Timestamp} :
    s.Counts (.commit id) (.ofExcept .committed x) ↔
      t.writes.isEmpty = false ∧ ∃ ts, x = .ok ts := by
  constructor
  · rintro ⟨i, u, ts, hop, hreply, active', writes⟩
    cases hop
    obtain rfl : t = u := Option.some.inj (active.1.symm.trans active'.1)
    cases x with
    | error e => cases hreply
    | ok ts' => exact ⟨writes, ts', rfl⟩
  · rintro ⟨writes, ts, rfl⟩
    exact ⟨id, t, ts, rfl, rfl, active, writes⟩

theorem step_commit_of_held (hget : s.held.get? id = some t) {x : Except TxnError Timestamp}
    {g : Engine} {t' : Txn} (h : s.engine.commit t = (x, g, t')) :
    s.step (.commit id) =
      (.ofExcept .committed x, { engine := g, held := s.held.insert id t' }) := by
  rw [step, onTxn, hget]
  simp only [h]

theorem Orderly.charged_of_active (h : s.Orderly) (active : s.Active id t) : s.Charged id := by
  obtain ⟨x, g', q, t', heq, hquiet, hx⟩ := Engine.exists_commit_beside active.2
    ((h.registered id _).2 ⟨t, active, rfl⟩)
  have hstep := step_commit_of_held active.1 heq
  have hstep' := step_commit_of_held (s := s.quiet) active.1 hquiet
  have hcounts := counts_commit_iff active (x := x)
  have hstore : ¬ s.Counts (.commit id) (.ofExcept .committed x) → g'.store = q.store := by
    intro hnot
    rcases hx with ⟨-, hstore⟩ | ⟨hok, -, hstore⟩
    · exact hstore
    · have writes : t.writes.isEmpty = true := by
        by_contra hwrites
        exact hnot (hcounts.2 ⟨by simpa using hwrites, hok⟩)
      simpa [Engine.dueAfter, writes] using hstore
  have hcount : s.Counts (.commit id) (.ofExcept .committed x) →
      g'.commitsSince = (if s.engine.dueAfter t then 0 else s.engine.commitsSince + 1) ∧
        g'.store = if s.engine.dueAfter t then (q.store.prune s.engine.lowWatermark).2
          else q.store := by
    intro hc
    obtain ⟨writes, ts, rfl⟩ := hcounts.1 hc
    rcases hx with ⟨⟨e, he⟩, -⟩ | ⟨-, hcount, hstore⟩
    · cases he
    · exact ⟨by simpa [Engine.countAfter, writes] using hcount, hstore⟩
  have hdue : s.Counts (.commit id) (.ofExcept .committed x) →
      (s.engine.dueAfter t = true ↔ s.engine.Due) := fun hc =>
    Engine.dueAfter_iff (hcounts.1 hc).1
  constructor
  all_goals rw [hstep, hstep']
  · exact hstore
  · intro hc hnot
    simpa [mt (hdue hc).1 hnot] using hcount hc
  · intro hc hyes
    simpa [(hdue hc).2 hyes] using hcount hc

theorem Orderly.charged (h : s.Orderly) (id : TxnId) : s.Charged id := by
  cases hget : s.held.get? id with
  | none =>
    refine charged_of_not_active (fun t active => by simp [active.1] at hget) ?_ ?_
    all_goals rw [step, onTxn, step, onTxn, show s.quiet.held = s.held from rfl, hget]
    rfl
  | some t =>
    by_cases hactive : t.status = .active
    · exact h.charged_of_active ⟨hget, hactive⟩
    · refine charged_of_not_active (fun u hu => ?_) ?_ ?_
      · obtain rfl : t = u := Option.some.inj (hget.symm.trans hu.1)
        exact hactive hu.2
      all_goals
        rw [step_commit_of_not_active hget hactive,
          step_commit_of_not_active (s := s.quiet) hget hactive]
      rfl

theorem Moves.quiet_cases {s' : Session} {r : Reply} {b : Chains}
    (hm : s.quiet.Moves a s' (.commit id) r b) : b = a ∨ ∃ ws ts, b = a.commit ws ts := by
  cases hm with
  | idle | ended | settled => exact Or.inl rfl
  | put put => cases put
  | committed active free writes tick engine leaves encodes turns =>
    have hundue : ¬ s.quiet.engine.Due := by
      rintro ⟨n, hn, -⟩
      cases hn
    cases leaves with
    | early => exact Or.inr ⟨_, _, rfl⟩
    | failed due => exact absurd due hundue
    | collected due => exact absurd due hundue

theorem exists_number_commit (a : Chains) (ws : WriteSet) (ts : Timestamp) {k : RecordKey}
    {v : Version} (hv : v ∈ a k) : ∃ u ∈ a.commit ws ts k, u.number = v.number := by
  rw [Chains.commit_apply]
  cases ws.get? k with
  | none => exact ⟨v, hv, rfl⟩
  | some w =>
    rcases List.eq_nil_or_concat' (a k) with hnil | ⟨c, u, hcu⟩
    · rw [hnil] at hv
      cases hv
    · simp only [hcu, Chain.extend_concat]
      rw [hcu, List.mem_append, List.mem_singleton] at hv
      rcases hv with hv | rfl
      · exact ⟨v, by simp [hv], rfl⟩
      · exact ⟨v.closedAt ((a.draft k w).version k ts).beginTs, by simp, rfl⟩

theorem Stands.places_quiet (h : s.Stands a) (id : TxnId) :
    ∃ b, (s.quiet.step (.commit id)).2.engine.store.tree.Encodes b ∧
      ∀ e ∈ s.engine.store.tree.toList,
        ∃ e' ∈ (s.quiet.step (.commit id)).2.engine.store.tree.toList, e'.1 = e.1 := by
  have hquiet : s.quiet.Stands a :=
    ⟨h.encodes, h.sound, h.id_eq, h.fits, h.begin_le, h.registered⟩
  obtain ⟨b, hm⟩ := exists_moves_commit hquiet id
  have hencodes := (hm.stands hquiet trivial).encodes
  refine ⟨b, hencodes, fun e he => ?_⟩
  obtain ⟨k, v, hv, rfl⟩ := (h.encodes.mem_iff e).1 he
  have hnumber : ∃ u ∈ b k, u.number = v.number := by
    rcases hm.quiet_cases with rfl | ⟨ws, ts, rfl⟩
    · exact ⟨v, hv, rfl⟩
    · exact exists_number_commit a ws ts hv
  obtain ⟨u, hu, hnum⟩ := hnumber
  refine ⟨u.entry, (hencodes.mem_iff _).2 ⟨k, u, hu, rfl⟩, ?_⟩
  show Layout.location u.key u.number = Layout.location v.key v.number
  rw [hencodes.key_eq k u hu, h.encodes.key_eq k v hv, hnum]

end Session

/-! ## The schedule -/

/-- The earliest begin of an active transaction. -/
structure Session.Earliest (s : Session) (low : Timestamp) : Prop where
  attained : ∃ id t, s.Active id t ∧ t.beginTs = low
  le : ∀ id t, s.Active id t → low ≤ t.beginTs

theorem Session.Orderly.earliest {s : Session} (h : s.Orderly) {id : TxnId} {t : Txn}
    (active : s.Active id t) : s.Earliest s.engine.lowWatermark := by
  refine ⟨?_, fun i u hu => h.lowWatermark_le hu⟩
  rcases s.engine.lowWatermark_cases with ⟨i, r, hr, heq⟩ | ⟨hnone, -⟩
  · obtain ⟨u, hu, rfl⟩ := (h.registered i r).1 hr
    exact ⟨i, u, hu, heq.symm⟩
  · have hr := (h.registered id _).2 ⟨t, active, rfl⟩
    rw [hnone] at hr
    cases hr

/-- What a collection leaves of a store: all but what ended by then, or everything if it fails. -/
structure Store.Reaped (mid store : Store) (low : Timestamp) : Prop where
  store_eq : store = (mid.prune low).2
  served : mid.Served store → store.tree.toList =
    mid.tree.toList.filter fun e => !Layout.endedBy low e.2
  failed : ∀ e, (mid.prune low).1 = .error e → store.tree = mid.tree

theorem Tree.Encodes.reaped {mid : Store} {b : Chains} (h : mid.tree.Encodes b) (low : Timestamp) :
    mid.Reaped (mid.prune low).2 low := by
  obtain ⟨r, store, heq, -, hr⟩ := Store.exists_prune h low
  rw [heq]
  rcases hr with ⟨⟨vs, -, rfl⟩, hencodes⟩ | ⟨⟨e, rfl⟩, hserved, hkept⟩
  · exact ⟨by rw [heq], fun _ => h.toList_keep hencodes, fun e he => by rw [heq] at he; cases he⟩
  · exact ⟨by rw [heq], fun served => absurd served hserved, fun _ _ => hkept.tree_eq⟩

namespace Engine

/-- How many commits with writes took place in a run. -/
def writeCount (g : Engine) (ops : List Op) : Nat := (g.trace ops).writeCount

/-- Collections come after every `n` commits with writes, and nothing shifts them. -/
structure Scheduled (g : Engine) (n : UInt64) (ops : List Op) : Prop where
  counted : ∀ op, (g.after ops).Counts op ((g.after ops).step op).1 →
    g.writeCount (ops ++ [op]) = g.writeCount ops + 1
  uncounted : ∀ op, ¬ (g.after ops).Counts op ((g.after ops).step op).1 →
    g.writeCount (ops ++ [op]) = g.writeCount ops
  answer : ∀ id,
    ((g.after ops).step (.commit id)).1 = ((g.after ops).quiet.step (.commit id)).1
  early : ∀ id, ¬ ((g.after ops).Counts (.commit id) ((g.after ops).step (.commit id)).1 ∧
      n.toNat ∣ g.writeCount (ops ++ [.commit id])) →
    ((g.after ops).step (.commit id)).2.engine.store =
      ((g.after ops).quiet.step (.commit id)).2.engine.store
  due : ∀ id, (g.after ops).Counts (.commit id) ((g.after ops).step (.commit id)).1 →
    n.toNat ∣ g.writeCount (ops ++ [.commit id]) →
      ∃ low, (g.after ops).Earliest low ∧
        Store.Reaped ((g.after ops).quiet.step (.commit id)).2.engine.store
          ((g.after ops).step (.commit id)).2.engine.store low
  /-- A place that is empty after a commit was emptied by the collection. -/
  removes : ∀ id, ∀ e ∈ (g.after ops).engine.store.tree.toList,
    (∀ e' ∈ ((g.after ops).step (.commit id)).2.engine.store.tree.toList, e'.1 ≠ e.1) →
      g.writeCount (ops ++ [.commit id]) = g.writeCount ops + 1 ∧
        n.toNat ∣ g.writeCount (ops ++ [.commit id])

variable {g : Engine} {n : UInt64} {ops : List Op}

theorem Fresh.writeCount_next (h : g.Fresh) (fits : ∀ op ∈ ops, op.Fits) (op : Op) :
    ((g.after ops).Counts op ((g.after ops).step op).1 →
      g.writeCount (ops ++ [op]) = g.writeCount ops + 1) ∧
    (¬ (g.after ops).Counts op ((g.after ops).step op).1 →
      g.writeCount (ops ++ [op]) = g.writeCount ops) := by
  obtain ⟨a, ha⟩ := h.chronicle ops fits
  rw [writeCount, writeCount, trace_concat]
  exact ha.records.writeCount_next

theorem due_iff {m : Nat} (every : g.collectEvery = some n) (pos : 0 < n)
    (count : g.commitsSince = m % n.toNat) : g.Due ↔ n.toNat ∣ m + 1 := by
  have hpos : 0 < n.toNat := UInt64.lt_iff_toNat_lt.1 pos
  have hlt := Nat.mod_lt m hpos
  -- the count stays below `n`, so one more fills the round or does not
  rw [Due, every, Nat.dvd_iff_mod_eq_zero, ← Nat.mod_add_mod, count]
  simp only [Option.mem_def, Option.some.injEq, exists_eq_left']
  constructor
  · intro hle
    rw [show m % n.toNat + 1 = n.toNat by omega, Nat.mod_self]
  · intro hzero
    by_contra hnot
    rw [Nat.mod_eq_of_lt (by omega)] at hzero
    omega

/-- The count that the engine keeps is the number of commits with writes, less full rounds. -/
theorem Pristine.count_eq (h : g.Pristine) (every : g.collectEvery = some n) (pos : 0 < n)
    (fits : ∀ op ∈ ops, op.Fits) : (g.after ops).engine.collectEvery = some n ∧
      (g.after ops).engine.commitsSince = g.writeCount ops % n.toNat := by
  induction ops using List.reverseRecOn with
  | nil => exact ⟨every, h.commitsSince_eq.trans (Nat.zero_mod _).symm⟩
  | append_singleton ops op ih =>
    have hfits : ∀ op ∈ ops, op.Fits := fun op' hop' => fits op' (List.mem_append_left _ hop')
    obtain ⟨hevery, hcount⟩ := ih hfits
    obtain ⟨hcounts, hsame⟩ := h.writeCount_next hfits op
    have hacts := acts_step (g.after ops) op
    rw [after_concat]
    refine ⟨hacts.collectEvery_eq.trans hevery, ?_⟩
    by_cases hc : (g.after ops).Counts op ((g.after ops).step op).1
    · rw [hcounts hc]
      have hdue := due_iff hevery pos hcount
      obtain ⟨id, t, ts, rfl, -⟩ := id hc
      have hcharged := (h.orderly ops).charged id
      by_cases hdvd : n.toNat ∣ g.writeCount ops + 1
      · rw [(hcharged.due hc (hdue.2 hdvd)).1, Nat.mod_eq_zero_of_dvd hdvd]
      · have hlt : g.writeCount ops % n.toNat + 1 < n.toNat := by
          by_contra hle
          exact hdvd (hdue.1 ⟨n, hevery, by omega⟩)
        rw [(hcharged.early hc (mt hdue.1 hdvd)).1, hcount, ← Nat.mod_add_mod,
          Nat.mod_eq_of_lt hlt]
    · rw [hacts.commitsSince_eq hc, hsame hc]
      exact hcount

/-- Collections keep to the schedule, in every run of an engine without versions. -/
theorem Pristine.scheduled (h : g.Pristine) (every : g.collectEvery = some n) (pos : 0 < n)
    (fits : ∀ op ∈ ops, op.Fits) : g.Scheduled n ops := by
  obtain ⟨a, ha⟩ := h.chronicle ops fits
  obtain ⟨hevery, hcount⟩ := h.count_eq every pos fits
  have horderly := h.orderly ops
  have hearly : ∀ id, ¬ ((g.after ops).Counts (.commit id) ((g.after ops).step (.commit id)).1 ∧
      n.toNat ∣ g.writeCount (ops ++ [.commit id])) →
        ((g.after ops).step (.commit id)).2.engine.store =
          ((g.after ops).quiet.step (.commit id)).2.engine.store := by
    intro id hnot
    by_cases hc : (g.after ops).Counts (.commit id) ((g.after ops).step (.commit id)).1
    · refine ((horderly.charged id).early hc fun hdue => hnot ⟨hc, ?_⟩).2
      rw [(h.writeCount_next fits _).1 hc]
      exact (due_iff hevery pos hcount).1 hdue
    · exact (horderly.charged id).uncounted hc
  refine ⟨fun op => (h.writeCount_next fits op).1, fun op => (h.writeCount_next fits op).2,
    fun id => (horderly.charged id).answer, hearly, fun id hc hdvd => ?_, fun id e he hgone => ?_⟩
  · rw [(h.writeCount_next fits _).1 hc] at hdvd
    obtain ⟨-, hstore⟩ := (horderly.charged id).due hc ((due_iff hevery pos hcount).2 hdvd)
    obtain ⟨b, hencodes, -⟩ := ha.stands.places_quiet id
    obtain ⟨i, t, ts, -, -, active, -⟩ := hc
    refine ⟨_, horderly.earliest active, ?_⟩
    rw [hstore]
    exact hencodes.reaped _
  · by_contra hnot
    have hstore := hearly id fun ⟨hc, hdvd⟩ => hnot ⟨(h.writeCount_next fits _).1 hc, hdvd⟩
    obtain ⟨b, -, hplaces⟩ := ha.stands.places_quiet id
    obtain ⟨e', he', hplace⟩ := hplaces e he
    rw [hstore] at hgone
    exact hgone e' he' hplace

theorem collectEvery_open? {settings : Settings} {site : Site} (h : open? settings site = .ok g) :
    g.collectEvery = settings.collectEvery.filter fun n => decide (0 < n) := by
  obtain ⟨m, s, -, -, rfl⟩ := exists_of_open? h
  rfl

/-- Four transactions write one record, one after the other, and versions are collected after every
second commit. The second commit still pins the version that its snapshot shows, so nothing goes. An
abort and a collection that is asked for do not count; the fourth commit takes away a version. -/
theorem scheduled_fourth :
    let settings : Settings := { collectEvery := some 2 }
    let k : RecordKey := ⟨"t", .int 1⟩
    let second : List Op := [.begin, .write ⟨1⟩ k [7], .commit ⟨1⟩, .begin, .write ⟨2⟩ k [8]]
    let fourth : List Op := second ++ [.commit ⟨2⟩, .begin, .write ⟨3⟩ k [9], .abort ⟨3⟩, .collect,
      .begin, .write ⟨4⟩ k [9], .commit ⟨4⟩, .begin, .write ⟨5⟩ k [7]]
    ∃ g, open? settings Site.fresh = .ok g ∧ g.Pristine ∧ g.collectEvery = some 2 ∧
      (∀ op ∈ fourth, op.Fits) ∧ g.Scheduled 2 second ∧ g.Scheduled 2 fourth ∧
      g.writeCount (second ++ [.commit ⟨2⟩]) = 2 ∧ g.writeCount (fourth ++ [.commit ⟨5⟩]) = 4 ∧
      (g.after (second ++ [.commit ⟨2⟩])).engine.store.tree.size = 2 ∧
      ((g.after fourth).quiet.step (.commit ⟨5⟩)).2.engine.store.tree.size = 3 ∧
      ((g.after fourth).step (.commit ⟨5⟩)).2.engine.store.tree.size = 2 := by
  intro settings k second fourth
  let found : Store := { medium := { tree := ∅, tally := { iterate := 1 } } }
  have opened : open? settings Site.fresh = .ok (withClock found { last := 0 } (some 2)) :=
    open?_eq (by decide +kernel) ((Store.openIn?_memory _ _).trans rfl)
  have hpristine := pristine_open? opened rfl
  have hevery : (withClock found { last := 0 } (some 2)).collectEvery = some 2 :=
    collectEvery_open? opened
  have hfits : ∀ op ∈ fourth, op.Fits := by
    simp [fourth, second, k, Op.Fits, Op.fits_key, UInt64.size]
  have hfits' : ∀ op ∈ second, op.Fits := fun op hop => hfits op (List.mem_append_left _ hop)
  refine ⟨_, opened, hpristine, hevery, hfits, hpristine.scheduled hevery (by decide) hfits',
    hpristine.scheduled hevery (by decide) hfits, ?_, ?_, ?_, ?_, ?_⟩
  all_goals decide +kernel

end Engine

end Mvcc
