import Mvcc.Proofs.AllOrNothing
import Mvcc.Proofs.Restart
import Mvcc.Proofs.SnapshotReads

/-!
# Recovery

Whenever an engine is given up and another one opened on the tree it left, the new one goes on where
the old one was: its clock is ahead of all that was written, its first transaction reads what was
committed last, and its commits number their versions on from there.

* `Session.timestamps_run`: timestamps in answers are later than the clock at the start.
* `Session.held_run`: nothing is held before the first begin.
* `Store.openIn?_leave`: what is left at a data path is found there again.
* `Engine.Recovery`, `Resumed.recovery`: the result, for any number of engines.
-/

namespace Mvcc

open Session

/-! ## Timestamps in answers -/

/-- The timestamp that an answer tells. -/
def Reply.timestamp? : Reply → Option Timestamp
  | .began _ ts | .committed ts | .issued ts => some ts
  | .notHeld | .failed _ | .found _ | .done | .dropped _ | .collected _ => none

namespace Session

variable {s : Session} {a : Chains} {op : Op} {ts : Timestamp}

theorem timestamp?_onTxn {α : Type} (s : Session) (id : TxnId) {answer : α → Reply}
    (work : Engine → Txn → Except TxnError α × Engine × Txn)
    (hanswer : ∀ x, (answer x).timestamp? = none) :
    (s.onTxn id answer work).1.timestamp? = none := by
  rw [onTxn]
  cases s.held.get? id with
  | none => rfl
  | some t =>
    show (Reply.ofExcept answer (work s.engine t).1).timestamp? = none
    cases (work s.engine t).1 with
    | ok x => exact hanswer x
    | error e => rfl

theorem timestamp?_onEngine {α : Type} (s : Session) {answer : α → Reply}
    (work : Engine → Except TxnError α × Engine) (hanswer : ∀ x, (answer x).timestamp? = none) :
    (s.onEngine answer work).1.timestamp? = none := by
  show (Reply.ofExcept answer (work s.engine).1).timestamp? = none
  cases (work s.engine).1 with
  | ok x => exact hanswer x
  | error e => rfl

theorem Stands.timestamp_step (h : s.Stands a) (hts : (s.step op).1.timestamp? = some ts) :
    s.engine.clock.last < ts ∨ ∃ i t, s.Active i t ∧ t.beginTs = ts := by
  cases op with
  | begin =>
    rw [step, Engine.begin] at hts
    cases htick : s.engine.clock.tick? with
    | none =>
      rw [htick] at hts
      cases hts
    | some clock =>
      rw [htick] at hts
      cases hts
      exact Or.inl (Clock.lt_last_of_tick? htick)
  | read id k => cases (timestamp?_onTxn s id _ fun _ => rfl).symm.trans hts
  | write id k p => cases (timestamp?_onTxn s id _ fun _ => rfl).symm.trans hts
  | delete id k => cases (timestamp?_onTxn s id _ fun _ => rfl).symm.trans hts
  | abort id => cases (timestamp?_onTxn s id _ fun _ => rfl).symm.trans hts
  | commit id =>
    cases hget : s.held.get? id with
    | none =>
      rw [step, onTxn, hget] at hts
      cases hts
    | some t =>
      by_cases hactive : t.status = .active
      · obtain ⟨r, g', heq, -, hr⟩ := exists_step_commit h ⟨hget, hactive⟩
        rw [heq] at hts
        cases hr with
        | refused => cases hts
        | readOnly =>
          cases hts
          exact Or.inr ⟨id, t, ⟨hget, hactive⟩, rfl⟩
        | wrote free writes tick =>
          cases hts
          exact Or.inl (Clock.lt_last_of_tick? tick)
      · rw [step_commit_of_not_active hget hactive] at hts
        cases hts
  | drop id =>
    rw [step] at hts
    cases hget : s.held.get? id <;> rw [hget] at hts <;> cases hts
  | issue =>
    rw [step, onEngine, Engine.issue] at hts
    cases htick : s.engine.clock.tick? with
    | none =>
      rw [htick] at hts
      cases hts
    | some clock =>
      rw [htick] at hts
      cases hts
      exact Or.inl (Clock.lt_last_of_tick? htick)
  | collect => cases (timestamp?_onEngine s _ fun _ => rfl).symm.trans hts
  | flush => cases (timestamp?_onEngine s _ fun _ => rfl).symm.trans hts

/-- All timestamps in answers are later than a time that is over when a run starts and that no active
transaction looks back to. -/
theorem Stands.timestamps_run (h : s.Stands a) {past : Timestamp} (hclock : past ≤ s.engine.clock.last)
    (hactive : ∀ i t, s.Active i t → past < t.beginTs) (ops : List Op)
    (hops : ∀ op ∈ ops, op.Fits) :
    ∀ e ∈ s.trace ops, ∀ ts ∈ e.reply.timestamp?, past < ts := by
  induction ops generalizing s a with
  | nil => simp [trace]
  | cons op rest ih =>
    have hop := hops op List.mem_cons_self
    obtain ⟨a₁, hm⟩ := exists_moves h hop
    intro e he ts hts
    rcases List.mem_cons.1 (he : e ∈ Event.mk op (s.step op).1 :: (s.step op).2.trace rest) with
      rfl | he
    · rcases h.timestamp_step hts with hlt | ⟨i, t, ht, rfl⟩
      · grind
      · exact hactive i t ht
    · refine ih (hm.stands h hop) (UInt64.le_trans hclock hm.clock_le) (fun i u hu => ?_)
        (fun op' hop' => hops op' (List.mem_cons_of_mem _ hop')) e he ts hts
      rcases hm.begin_eq hu with ⟨t, ht, hbegin⟩ | ⟨-, hlt, rfl⟩
      · exact hbegin ▸ hactive i t ht
      · show past < (s.step op).2.engine.clock.last
        grind

/-! ## Before the first begin -/

theorem held_run (hnone : ∀ i, s.held.get? i = none) {ops : List Op} (hops : .begin ∉ ops) :
    ∀ i, (s.run ops).2.held.get? i = none := by
  induction ops generalizing s with
  | nil => exact hnone
  | cons op rest ih =>
    refine ih (fun i => ?_) fun hmem => hops (List.mem_cons_of_mem _ hmem)
    rw [Option.eq_none_iff_forall_ne_some]
    intro u hu
    rcases held_step hu with hget | ⟨t, ht⟩ | ⟨rfl, -⟩
    · rw [hnone] at hget
      cases hget
    · cases (hnone i).symm.trans ht.1
    · exact hops List.mem_cons_self

end Session

theorem Engine.commits_of_no_begin (g : Engine) {ops : List Op} (hops : .begin ∉ ops) :
    (g.trace ops).commits = [] := by
  induction ops using List.reverseRecOn with
  | nil => rfl
  | append_singleton ops op ih =>
    have hops' : .begin ∉ ops := fun hmem => hops (by simp [hmem])
    rw [trace_concat, Trace.commits_concat, ih hops', List.nil_append, Option.toList_eq_nil_iff,
      Option.eq_none_iff_forall_ne_some]
    intro c hc
    obtain ⟨id, ts, rfl, hreply, -⟩ := Event.exists_of_commit? hc
    obtain ⟨t, ht⟩ := active_of_committed hreply
    have hnone : ∀ i, g.session.held.get? i = none := fun _ => rfl
    cases (held_run hnone hops' id).symm.trans ht.1

namespace Trace

variable {past : History} {tr : Trace} {s : Session} {a : Chains} {id : TxnId} {t : Txn}
  {k : RecordKey}

theorem Annals.visible_eq_past (h : tr.Annals past s a) (active : s.Active id t)
    (earlier : ∀ w ∈ past k, w.1 ≤ t.beginTs) (later : ∀ w ∈ tr.writers k, t.beginTs < w.1) :
    ((a k).visible? t.beginTs).bind (·.payload) = (past k).getLast?.bind (·.2) := by
  have hvisible := (h.kept k).visible?_eq (h.stands.sound.linked k) fun b hb => hb id t active
  -- the snapshot is between the writers of the history and those of the run
  have hnone : ((tr.writers k).filter fun w => decide (w.1 ≤ t.beginTs)) = [] :=
    List.filter_eq_nil_iff.2 fun w hw => by simpa using later w hw
  rw [List.filter_append, List.filter_eq_self.2 fun w hw => by simpa using earlier w hw, hnone,
    List.append_nil] at hvisible
  rw [← hvisible]
  cases (a k).visible? t.beginTs <;> rfl

end Trace

/-! ## What is found again -/

namespace Store

theorem openIn?_leave (s : Store) (trees : Trees) (name : String) :
    openIn? .sled (s.leave .sled (.directory trees) name) name =
      (recover (Medium.ofTree s.tree)).1 := by
  have hfound : (((((trees.insertIfNew Database.defaultTree ∅).insert name s.tree).insertIfNew
      Database.defaultTree ∅).insertIfNew name ∅).get? name).getD ∅ = s.tree := by
    rw [OrderedMap.get?_insertIfNew, if_pos rfl, Option.getD_some, OrderedMap.get?_insertIfNew]
    split_ifs with hname
    · rw [← hname, OrderedMap.get?_insert_self]
      rfl
    · rw [OrderedMap.get?_insert_self]
      rfl
  show (recover (Medium.ofTree (((((trees.insertIfNew Database.defaultTree ∅).insert name
    s.tree).insertIfNew Database.defaultTree ∅).insertIfNew name ∅).get? name |>.getD ∅))).1 = _
  rw [hfound]

end Store

namespace Engine

theorem open?_eq {settings : Settings} {site : Site} {s : Store}
    (hvalid : settings.validate = .ok ())
    (hstore : Store.openIn? settings.backend site settings.treeName = .ok s) :
    open? settings site =
      .ok (withClock s { last := max s.maxTs settings.initialTs } settings.collectEvery) := by
  rw [open?, hvalid, hstore]
  rfl

variable {past : List Chapter} {g : Engine}

theorem began_eq {s : Session} {id : TxnId} {ts : Timestamp} (h : (s.step .begin).1 = .began id ts) :
    (s.step .begin).2.engine.clock.last = ts ∧
      (s.step .begin).2.Active id { id, beginTs := ts } := by
  rw [step, begin] at h ⊢
  cases htick : s.engine.clock.tick? with
  | none =>
    rw [htick] at h
    cases h
  | some clock =>
    rw [htick] at h
    cases h
    exact ⟨rfl, OrderedMap.get?_insert_self _ _ _, rfl⟩

theorem exists_began {s : Session} (h : s.engine.clock.last ≠ Timestamp.greatest) :
    ∃ id ts, (s.step .begin).1 = .began id ts := by
  rw [step, begin]
  cases htick : s.engine.clock.tick? with
  | none => exact absurd ((Clock.tick?_eq_none_iff _).1 htick) h
  | some clock => exact ⟨_, _, rfl⟩

/-- How a read of a transaction is answered when its snapshot shows `shown` under the key. -/
def ReadsAs (g : Engine) (ops : List Op) (id : TxnId) (k : RecordKey) (shown : Option Payload) :
    Prop :=
  ((g.after ops).step (.read id k)).1 =
      .found ((lastPut? ((g.trace ops).deeds id) k).getD shown) ∨
    (∃ e, ((g.after ops).step (.read id k)).1 = .failed (.storage e)) ∧
      ¬ (g.after ops).engine.store.Served ((g.after ops).step (.read id k)).2.engine.store

theorem Resumed.first_read (h : Resumed past g) {pre post : List Op}
    (fits : ∀ op ∈ pre ++ .begin :: post, op.Fits) (first : .begin ∉ pre) {id : TxnId}
    {ts : Timestamp} (began : ((g.after pre).step .begin).1 = .began id ts) {t : Txn}
    (active : (g.after (pre ++ .begin :: post)).Active id t) {k : RecordKey} (hk : k.Fits) :
    g.ReadsAs (pre ++ .begin :: post) id k ((Chapter.writers past k).getLast?.bind (·.2)) := by
  rw [List.append_cons] at fits active ⊢
  obtain ⟨hclock, hactive⟩ := began_eq began
  rw [← after_concat] at hclock hactive
  obtain ⟨a₁, h₁⟩ := h.annals (pre ++ [.begin]) fun op hop => fits op (List.mem_append_left _ hop)
  have hwriters : (g.trace (pre ++ [.begin])).writers k = [] := by
    rw [Trace.writers, trace_concat, Trace.commits_concat, g.commits_of_no_begin first]
    rfl
  obtain ⟨a, ha, -, hmore⟩ := h₁.run post fun op hop => fits op (List.mem_append_right _ hop)
  rw [← trace_append, ← after_append] at ha
  -- the transaction is still the one that began first
  have hbegin : t.beginTs = ts := by
    have hbegan := ha.records.began id t active
    rw [trace_append, Trace.beginTs?_append, h₁.records.began id _ hactive] at hbegan
    exact (Option.some.inj hbegan).symm
  have hshown := ha.visible_eq_past (k := k) active (fun w hw => ?earlier) fun w hw => ?later
  case earlier =>
    rw [hbegin, ← hclock]
    exact h₁.writer_le k w (List.mem_append_left _ hw)
  case later =>
    obtain ⟨more, he, hlate⟩ := hmore k
    rw [trace_append, he, hwriters, List.nil_append] at hw
    rw [hbegin, ← hclock]
    exact hlate w hw
  rw [ReadsAs, ← hshown]
  exact ha.records.read_eq ha.stands active hk

/-- What a run of an engine is like, given what other engines did to its tree before, and how the
tree can be taken up when the engine is given up. -/
structure Recovery (past : List Chapter) (g : Engine) (ops : List Op) : Prop where
  reopened : ∀ m : Medium, m.tree = (g.after ops).engine.store.tree →
    ∃ r m', Store.recover m = (r, m') ∧
      ((∃ s, r = .ok s ∧ s.tree = m.tree ∧
          (ofStore s).clock.last = Chapter.lastWrite (past ++ [g.chapter ops]) ∧
          Resumed (past ++ [g.chapter ops]) (ofStore s)) ∨
        (∃ e, r = .error e) ∧ ¬ m.plan.Serves m.tally m'.tally)
  opened : ∀ (settings : Settings) (trees : Trees), settings.backend = .sled →
    settings.validate = .ok () →
      ∃ g', open? settings ((g.after ops).engine.store.leave .sled (.directory trees)
          settings.treeName) = .ok g' ∧ g'.store.tree = (g.after ops).engine.store.tree ∧
        g'.clock.last = max (Chapter.lastWrite (past ++ [g.chapter ops])) settings.initialTs ∧
        Resumed (past ++ [g.chapter ops]) g'
  later : ∀ e ∈ g.trace ops, ∀ ts ∈ e.reply.timestamp?, Chapter.lastWrite past < ts
  first : ∀ pre post, ops = pre ++ .begin :: post → .begin ∉ pre →
    (g.after pre).engine.clock.last ≠ Timestamp.greatest →
      ∃ id ts, ((g.after pre).step .begin).1 = .began id ts ∧
        ∀ t, (g.after ops).Active id t → ∀ k : RecordKey, k.Fits →
          g.ReadsAs ops id k ((Chapter.writers past k).getLast?.bind (·.2))
  numbered : ∀ id t ts, (g.after ops).Active id t →
    ((g.after ops).step (.commit id)).1 = .committed ts → ∀ k w, t.writes.get? k = some w →
      ∃ n u, ((g.after ops).step (.commit id)).2.held.get? id = some u ∧
        u.writes.get? k = some { payload := w.payload, number := some n } ∧
        n.toNat = (Chapter.writers (past ++ [g.chapter ops]) k).length
  stored : ∃ a, (g.after ops).engine.store.tree.Encodes a ∧ ∀ k, ∃ n,
    (a k).Holds (Chapter.writers (past ++ [g.chapter ops]) k) n

/-- Engines can be given up at any time and others opened on what they leave: nothing that was
committed is lost, and nothing else is left. -/
theorem Resumed.recovery (h : Resumed past g) (ops : List Op) (hops : ∀ op ∈ ops, op.Fits) :
    g.Recovery past ops := by
  obtain ⟨a₀, h₀⟩ := h.annals_nil
  obtain ⟨a, ha⟩ := h.annals ops hops
  have hwriters : ∀ k, Chapter.writers (past ++ [g.chapter ops]) k =
      Chapter.writers past k ++ (g.trace ops).writers k := Chapter.writers_concat past _
  refine ⟨fun m htree => ?_, fun settings trees hbackend hvalid => ?_, ?_,
    fun pre post he hpre hclock => ?_, fun id t ts active hcommitted k w hw => ?_,
    a, ha.stands.encodes, fun k => ?_⟩
  · obtain ⟨r, m', heq, hr⟩ := h.exists_recover ops hops htree
    refine ⟨r, m', heq, hr.imp_left ?_⟩
    rintro ⟨s, rfl, hs, hmax⟩
    refine ⟨s, rfl, hs, hmax, .again h hops htree ?_ (UInt64.le_refl _) none⟩
    rw [heq]
  · obtain ⟨s, hrecover, hs, hmax⟩ := h.exists_store ops hops
    have hstore : Store.openIn? settings.backend ((g.after ops).engine.store.leave .sled
        (.directory trees) settings.treeName) settings.treeName = .ok s := by
      rw [hbackend, Store.openIn?_leave]
      exact hrecover
    refine ⟨_, open?_eq hvalid hstore, hs, hmax ▸ rfl, ?_⟩
    have hahead := ((Timestamp.max_le_iff s.maxTs settings.initialTs _).1 (UInt64.le_refl _)).1
    exact @Resumed.again past g ops (Medium.ofTree (g.after ops).engine.store.tree) s h hops rfl
      hrecover { last := _ } hahead settings.collectEvery
  · intro e he ts hts
    have hlast : Chapter.lastWrite past ≤ g.clock.last :=
      (Chapter.lastWrite_le_iff past _).2 fun k w hw =>
        h₀.writer_le k w (List.mem_append_left _ hw)
    refine h₀.stands.timestamps_run hlast (fun i t ht => ?_) ops hops e he ts hts
    cases ht.1
  · subst he
    obtain ⟨id, ts, hbegan⟩ := exists_began hclock
    exact ⟨id, ts, hbegan, fun t active k hk => h.first_read hops hpre hbegan active hk⟩
  · obtain ⟨u, hu, hnumber⟩ := exists_numbered ha.stands active hcommitted hw
    refine ⟨(a.draft k w).number, u, hu, hnumber, ?_⟩
    rw [hwriters]
    exact ha.toNat_draft_number k w
  · rw [hwriters]
    exact ha.exists_holds k

theorem resumed_inMemory : Resumed [] inMemory := @Resumed.first Store.empty rfl _ none

/-- A second engine takes up what the first one left after its last commit at 3. -/
theorem recovery_overlap :
    ∃ g, Resumed [inMemory.chapter Op.overlap] g ∧ (∀ op ∈ Op.overlap, op.Fits) ∧
      g.Recovery [inMemory.chapter Op.overlap] Op.overlap ∧ g.clock.last = 3 ∧
      (Chapter.writers [inMemory.chapter Op.overlap] ⟨"t", .int 1⟩).getLast? = some (3, some [7]) := by
  obtain ⟨s, hrecover, -, hmax⟩ := resumed_inMemory.exists_store Op.overlap Op.fits_overlap
  have second := resumed_inMemory.reopen Op.fits_overlap hrecover
  refine ⟨ofStore s, second, Op.fits_overlap, second.recovery Op.overlap Op.fits_overlap, ?_,
    by decide +kernel⟩
  show s.maxTs = 3
  rw [hmax]
  decide +kernel

/-- A commit without writes leaves no trace in the tree, so its timestamp is issued again. And an
engine is not opened where no timestamp would be left. -/
theorem reissued_after_read_only :
    (¬ ∀ (ops ops' : List Op) (s : Store), (∀ op ∈ ops ++ ops', op.Fits) →
      (Store.recover (Medium.ofTree (inMemory.after ops).engine.store.tree)).1 = .ok s →
        ∀ c ∈ (inMemory.trace ops).commits, ∀ e ∈ (ofStore s).trace ops',
          ∀ ts ∈ e.reply.timestamp?, c.ts < ts) ∧
      open? { Settings.inDirectory "data" with initialTs := Timestamp.greatest } Site.fresh =
        .error (.settings .noTimestampLeft) := by
  refine ⟨fun h => ?_, ?_⟩
  · let ops : List Op := [.begin, .commit ⟨1⟩]
    have fits : ∀ op ∈ ops, op.Fits := by simp [ops, Op.Fits]
    obtain ⟨s, hrecover, -, hmax⟩ := resumed_inMemory.exists_store ops fits
    have hzero : s.maxTs = 0 := by
      rw [hmax]
      decide +kernel
    have hbegan : ((ofStore s).session.step .begin).1 = .began ⟨1⟩ 1 := by
      have htick : (ofStore s).session.engine.clock.tick? = some { last := 1 } := by
        show Clock.tick? { last := s.maxTs } = _
        rw [hzero]
        decide +kernel
      rw [step, begin, htick]
      rfl
    obtain ⟨c, hc, hts⟩ : ∃ c ∈ (inMemory.trace ops).commits, c.ts = 1 := by decide +kernel
    have hlt := h ops [.begin] s (by simp [ops, Op.Fits]) hrecover c hc
      ⟨.begin, ((ofStore s).session.step .begin).1⟩ (List.mem_singleton_self _) 1
      (by rw [hbegan]; rfl)
    rw [hts] at hlt
    exact UInt64.lt_irrefl _ hlt
  · rw [open?, show Settings.validate _ = .error .noTimestampLeft by decide +kernel]
    rfl

end Engine

end Mvcc
