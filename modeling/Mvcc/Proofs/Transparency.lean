import Mvcc.Proofs.Annals
import Mvcc.Proofs.ChainInvariant

/-!
# Collections go unnoticed

Two runs that ask for the same but for collections get the same answers, whenever the collections
take place, asked for or due. The trees of the two runs may differ all along. What the answers depend
on is the same in both: the last version of every chain, and what the snapshots that are or will be
read from see.

* `Chains.lookup`, `Chains.verdict`: how a read and a commit end when no call fails, with
  `lookup_congr` and `verdict_congr`.
* `Session.Alike`: two sessions that differ in versions nobody looks at, with `Alike.next` for an
  operation of both and `Alike.collect_left` for a collection in one of them.
* `Alike.run`: a run with collections beside one without.
* `Session.SameFor`, `Tree.Left.collections_unnoticed`: the result for any two such runs on a tree
  that engines left.
-/

namespace Mvcc

open Session

/-! ## Reads and commits without failures -/

namespace Chains

variable {a a' : Chains}

/-- What the read of a transaction comes to when no call fails, and the handle after it. -/
def lookup (a : Chains) (t : Txn) (k : RecordKey) : Except TxnError (Option Payload) × Txn :=
  match t.writes.get? k with
  | some w => (.ok w.payload, t)
  | none =>
    let found := ((a k).visible? t.beginTs).bind (·.payload)
    (.ok found,
      { t with reads := t.reads.record k { readTs := t.beginTs, live := found.isSome } })

theorem lookup_congr {t : Txn} {k : RecordKey} (h : ((a' k).visible? t.beginTs).bind (·.payload) =
    ((a k).visible? t.beginTs).bind (·.payload)) : a'.lookup t k = a.lookup t k := by
  rw [lookup, lookup, h]

theorem conflictOfRead?_congr (h : ∀ k, (a' k).latest? = (a k).latest?) :
    a'.conflictOfRead? = a.conflictOfRead? := by
  funext k o upper
  rw [conflictOfRead?, conflictOfRead?, committedAfter?, committedAfter?, h k]

theorem conflictOfWrite?_congr (h : ∀ k, (a' k).latest? = (a k).latest?) :
    a'.conflictOfWrite? = a.conflictOfWrite? := by
  funext k ts
  rw [conflictOfWrite?, conflictOfWrite?, committedAfter?, committedAfter?, h k]

theorem conflict?_congr (h : ∀ k, (a' k).latest? = (a k).latest?) (t : Txn) (upper : Timestamp) :
    a'.conflict? t upper = a.conflict? t upper := by
  rw [conflict?, conflict?, readConflict?, readConflict?, writeConflict?, writeConflict?,
    conflictOfRead?_congr h, conflictOfWrite?_congr h]

theorem draft_congr (h : ∀ k, (a' k).latest? = (a k).latest?) : a'.draft = a.draft := by
  funext k w
  rw [draft, draft, h k]

/-- How the commit of a transaction ends when no call fails, and the clock after it. -/
def verdict (a : Chains) (t : Txn) (clock : Clock) : Except TxnError Timestamp × Clock :=
  match a.conflict? t clock.last with
  | some c => (.error (.conflict c), clock)
  | none =>
    if t.writes.isEmpty then (.ok t.beginTs, clock)
    else match clock.tick? with
      | none => (.error (.exhausted clock.last), clock)
      | some clock => (.ok clock.last, clock)

theorem verdict_congr (h : ∀ k, (a' k).latest? = (a k).latest?) (t : Txn) (clock : Clock) :
    a'.verdict t clock = a.verdict t clock := by
  rw [verdict, verdict, conflict?_congr h]

end Chains

theorem Txn.answered_congr {a a' : Chains} (h : ∀ k, (a' k).latest? = (a k).latest?) (t : Txn)
    (r : Except TxnError Timestamp) : t.answered a' r = t.answered a r := by
  cases r with
  | error e => rfl
  | ok ts => rw [answered, answered, Chains.numbered, Chains.numbered, Chains.draft_congr h]

theorem Engine.Reads.lookup_eq {g g' : Engine} {t t' : Txn} {k : RecordKey} {a : Chains}
    {r : Except TxnError (Option Payload)} (h : g.Reads t k a g' t' r)
    (served : g.store.Served g'.store) : a.lookup t k = (r, t') := by
  rw [Chains.lookup]
  cases h with
  | own write => rw [write]
  | seen write visible => rw [write, visible]
  | failed write status engine failed => exact absurd served failed

theorem Engine.Commits.verdict_eq {g g' : Engine} {t : Txn} {a : Chains}
    {r : Except TxnError Timestamp} (h : g.Commits t a g' r) (served : g.store.Served g'.store) :
    a.verdict t g.clock = (r, g'.clock) := by
  rw [Chains.verdict]
  cases h with
  | refused reason =>
    cases reason with
    | conflict found clock => rw [found, clock]
    | exhausted free writes last clock =>
      rw [free, writes, (Clock.tick?_eq_none_iff _).2 last, clock]
      rfl
    | storage failed => exact absurd served failed
  | readOnly free writes kept clock => rw [free, writes, clock, if_pos rfl]
  | wrote free writes tick =>
    rw [free, writes, tick]
    rfl

theorem Tree.Encodes.readConflicts_eq {m : Medium} {a : Chains} (h : m.tree.Encodes a)
    {reads : ReadSet} (hreads : ∀ e ∈ reads.toList, e.1.Fits) (upper : Timestamp) :
    m.readConflicts reads upper =
      reads.toList.filterMap fun e => a.conflictOfRead? e.1 e.2 upper := by
  refine List.filterMap_congr fun e he => ?_
  have hanswers : (Probe.conflictOfRead? e.1 e.2 upper).Answers m.tree
      (.ok (a.conflictOfRead? e.1 e.2 upper)) :=
    (h.answers_committedAfter? (hreads e he) e.2.readTs).map _
  have hread : (m.heal.read (Probe.conflictOfRead? e.1 e.2 upper)).1 =
      .ok (a.conflictOfRead? e.1 e.2 upper) :=
    (hanswers Plan.reliable m.tally).eq_or_error.resolve_right fun hfailed =>
      hfailed.2 fun _ _ _ _ => rfl
  rw [hread]

theorem Engine.clock_read (g : Engine) (t : Txn) (k : RecordKey) :
    (g.read t k).2.1.clock = g.clock := by
  rw [read]
  split_ifs
  · cases t.writes.get? k with
    | some w => rfl
    | none =>
      simp only
      rcases g.store.visible? k t.beginTs with ⟨_ | _, _⟩ <;> rfl
  · rfl

theorem Session.clock_step_read (s : Session) (id : TxnId) (k : RecordKey) :
    (s.step (.read id k)).2.engine.clock = s.engine.clock := by
  rw [step, onTxn]
  cases s.held.get? id with
  | none => rfl
  | some t => exact s.engine.clock_read t k

namespace Session

variable {s s' : Session} {a a' b b' : Chains} {op : Op} {r : Reply}

theorem Moves.lastId_eq (hm : s.Moves a s' op r a') (hop : op ≠ .begin) :
    s'.engine.lastId = s.engine.lastId ∨ s.engine.clock.last = Timestamp.greatest := by
  rcases hm.engine_eq with ⟨_, engine, -⟩ | ⟨hbegin, -⟩
  · exact engine.lastId_eq
  · exact absurd hbegin hop

theorem Moves.clock_eq_greatest (hm : s.Moves a s' op r a')
    (h : s.engine.clock.last = Timestamp.greatest) : s'.engine.clock.last = Timestamp.greatest := by
  have hle := hm.clock_le
  rw [h] at hle
  have hmax : s'.engine.clock.last ≤ Timestamp.greatest := by
    have hsize := s'.engine.clock.last.toNat_lt
    rw [UInt64.le_iff_toNat_le]
    exact Nat.le_of_lt_succ hsize
  exact UInt64.le_antisymm hmax hle

theorem lastId_begin (s : Session) : (s.step .begin).2.engine.lastId = s.engine.lastId + 1 := by
  rw [step, Engine.begin]
  cases s.engine.clock.tick? <;> rfl

/-! ## Two sessions side by side -/

/-- What neither an active transaction nor one to come looks at any more. -/
def Behind (s : Session) (ts : Timestamp) : Prop := ts ≤ s.engine.clock.last ∧ s.Passed ts

/-- Sessions with the same clock and handles, on chains that differ in versions nobody looks at. -/
structure Alike (s s' : Session) (a a' : Chains) : Prop where
  held_eq : s'.held = s.held
  clock_eq : s'.engine.clock = s.engine.clock
  lastId_eq : s'.engine.lastId = s.engine.lastId ∨ s.engine.clock.last = Timestamp.greatest
  stands : s.Stands a
  stands' : s'.Stands a'
  timely : s.Timely
  timely' : s'.Timely
  last_eq : ∀ k, (a' k).getLast? = (a k).getLast?
  keeps : ∀ k, ∃ ws, (a k).Keeps ws s.Behind ∧ (a' k).Keeps ws s'.Behind

/-- Two steps that clients cannot tell apart. -/
structure Even (x x' : Reply × Session) : Prop where
  reply_eq : x'.1 = x.1
  held_eq : x'.2.held = x.2.held
  clock_eq : x'.2.engine.clock = x.2.engine.clock

namespace Alike

theorem latest_eq (h : s.Alike s' a a') (k : RecordKey) : (a' k).latest? = (a k).latest? := by
  rw [(h.stands.sound.linked k).latest?_eq, (h.stands'.sound.linked k).latest?_eq, h.last_eq k]

theorem active (h : s.Alike s' a a') {id : TxnId} {t : Txn} (ht : s.Active id t) :
    s'.Active id t :=
  ⟨h.held_eq ▸ ht.1, ht.2⟩

theorem visible_eq (h : s.Alike s' a a') {id : TxnId} {t : Txn} (ht : s.Active id t)
    (k : RecordKey) :
    ((a' k).visible? t.beginTs).bind (·.payload) = ((a k).visible? t.beginTs).bind (·.payload) := by
  obtain ⟨ws, hk, hk'⟩ := h.keeps k
  have hvisible := hk.visible?_eq (h.stands.sound.linked k) fun b hb => hb.2 id t ht
  have hvisible' := hk'.visible?_eq (h.stands'.sound.linked k) fun b hb => hb.2 id t (h.active ht)
  have hmarks := hvisible'.trans hvisible.symm
  have hpayload (found : Option Version) :
      found.bind (·.payload) = (found.map Version.mark).bind (·.2) := by
    cases found <;> rfl
  rw [hpayload, hmarks, ← hpayload]

/-! ### What clients see -/

theorem even_onTxn (h : s.Alike s' a a') {α : Type} (id : TxnId) (answer : α → Reply)
    (work : Engine → Txn → Except TxnError α × Engine × Txn)
    (hsame : ∀ t, (work s'.engine t).1 = (work s.engine t).1 ∧
      (work s'.engine t).2.2 = (work s.engine t).2.2)
    (hclock : ∀ g t, (work g t).2.1.clock = g.clock) :
    Even (s.onTxn id answer work) (s'.onTxn id answer work) := by
  rw [onTxn, onTxn, h.held_eq]
  cases s.held.get? id with
  | none => exact ⟨rfl, h.held_eq, h.clock_eq⟩
  | some t =>
    obtain ⟨hresult, ht⟩ := hsame t
    refine ⟨?_, ?_, ?_⟩
    · exact congrArg (Reply.ofExcept answer) hresult
    · exact congrArg (s.held.insert id) ht
    · show (work s'.engine t).2.1.clock = (work s.engine t).2.1.clock
      rw [hclock, hclock, h.clock_eq]

theorem even_begin (h : s.Alike s' a a') : Even (s.step .begin) (s'.step .begin) := by
  rw [step, step, Engine.begin, Engine.begin, h.clock_eq]
  cases htick : s.engine.clock.tick? with
  | none => exact ⟨rfl, h.held_eq, rfl⟩
  | some clock =>
    have hlast : s.engine.clock.last ≠ Timestamp.greatest := fun he => by
      rw [(Clock.tick?_eq_none_iff _).2 he] at htick
      cases htick
    rw [h.lastId_eq.resolve_right hlast]
    exact ⟨rfl, congrArg (OrderedMap.insert · _ _) h.held_eq, rfl⟩

theorem even_read (h : s.Alike s' a a') (id : TxnId) {k : RecordKey} (hk : k.Fits)
    (served : s.engine.store.Served (s.step (.read id k)).2.engine.store)
    (served' : s'.engine.store.Served (s'.step (.read id k)).2.engine.store) :
    Even (s.step (.read id k)) (s'.step (.read id k)) := by
  cases hget : s.held.get? id with
  | none =>
    rw [step, step, onTxn, onTxn, h.held_eq, hget]
    exact ⟨rfl, h.held_eq, h.clock_eq⟩
  | some t =>
    by_cases hactive : t.status = .active
    · have ht : s.Active id t := ⟨hget, hactive⟩
      obtain ⟨r, g, u, heq, hr⟩ := exists_step_read h.stands ht hk
      obtain ⟨r', g', u', heq', hr'⟩ := exists_step_read h.stands' (h.active ht) hk
      have hclock : g'.clock = g.clock := by
        have hg := clock_step_read s id k
        have hg' := clock_step_read s' id k
        rw [heq] at hg
        rw [heq'] at hg'
        exact hg'.trans (h.clock_eq.trans hg.symm)
      rw [heq] at served
      rw [heq'] at served'
      have hlookup := hr.lookup_eq served
      have hlookup' := hr'.lookup_eq served'
      rw [Chains.lookup_congr (h.visible_eq ht k), hlookup] at hlookup'
      obtain ⟨rfl, rfl⟩ := Prod.mk.inj hlookup'
      rw [heq, heq', h.held_eq]
      exact ⟨rfl, rfl, hclock⟩
    · rw [step_read_of_not_active hget hactive,
        step_read_of_not_active (h.held_eq ▸ hget) hactive]
      exact ⟨rfl, congrArg (OrderedMap.insert · id t) h.held_eq, h.clock_eq⟩

theorem even_commit (h : s.Alike s' a a') (id : TxnId)
    (served : s.engine.store.Served (s.step (.commit id)).2.engine.store)
    (served' : s'.engine.store.Served (s'.step (.commit id)).2.engine.store) :
    Even (s.step (.commit id)) (s'.step (.commit id)) := by
  cases hget : s.held.get? id with
  | none =>
    rw [step, step, onTxn, onTxn, h.held_eq, hget]
    exact ⟨rfl, h.held_eq, h.clock_eq⟩
  | some t =>
    by_cases hactive : t.status = .active
    · have ht : s.Active id t := ⟨hget, hactive⟩
      obtain ⟨r, g, heq, -, hr⟩ := exists_step_commit h.stands ht
      obtain ⟨r', g', heq', -, hr'⟩ := exists_step_commit h.stands' (h.active ht)
      rw [heq] at served
      rw [heq'] at served'
      have hverdict := hr.verdict_eq served
      have hverdict' := hr'.verdict_eq served'
      rw [h.clock_eq, Chains.verdict_congr h.latest_eq, hverdict] at hverdict'
      obtain ⟨rfl, hclock⟩ := Prod.mk.inj hverdict'
      rw [heq, heq', Txn.answered_congr h.latest_eq, h.held_eq]
      exact ⟨rfl, rfl, hclock.symm⟩
    · rw [step_commit_of_not_active hget hactive,
        step_commit_of_not_active (h.held_eq ▸ hget) hactive]
      exact ⟨rfl, congrArg (OrderedMap.insert · id t) h.held_eq, h.clock_eq⟩

theorem even_drop (h : s.Alike s' a a') (id : TxnId) :
    Even (s.step (.drop id)) (s'.step (.drop id)) := by
  rw [step, step, h.held_eq]
  cases s.held.get? id with
  | none => exact ⟨rfl, h.held_eq, h.clock_eq⟩
  | some t =>
    have hclock (g : Engine) : (g.drop t).clock = g.clock := by
      rw [Engine.drop]
      split_ifs <;> rfl
    refine ⟨rfl, rfl, ?_⟩
    show (s'.engine.drop t).clock = (s.engine.drop t).clock
    rw [hclock, hclock, h.clock_eq]

theorem even_issue (h : s.Alike s' a a') : Even (s.step .issue) (s'.step .issue) := by
  rw [step, step, onEngine, onEngine, Engine.issue, Engine.issue, h.clock_eq]
  cases s.engine.clock.tick? with
  | none => exact ⟨rfl, h.held_eq, h.clock_eq⟩
  | some clock => exact ⟨rfl, h.held_eq, rfl⟩

theorem even_flush (h : s.Alike s' a a')
    (served : s.engine.store.Served (s.step .flush).2.engine.store)
    (served' : s'.engine.store.Served (s'.step .flush).2.engine.store) :
    Even (s.step .flush) (s'.step .flush) := by
  obtain ⟨r, st, heq, -, hr⟩ := Store.exists_flush s.engine.store
  obtain ⟨r', st', heq', -, hr'⟩ := Store.exists_flush s'.engine.store
  rw [step, onEngine, Engine.flush, Engine.onStore, heq] at served ⊢
  rw [step, onEngine, Engine.flush, Engine.onStore, heq'] at served' ⊢
  obtain rfl := hr.resolve_right fun hfailed => hfailed.2 served
  obtain rfl := hr'.resolve_right fun hfailed => hfailed.2 served'
  exact ⟨rfl, h.held_eq, h.clock_eq⟩

theorem even (h : s.Alike s' a a') (hop : op.Fits) (plain : op ≠ .collect)
    (served : s.engine.store.Served (s.step op).2.engine.store)
    (served' : s'.engine.store.Served (s'.step op).2.engine.store) :
    Even (s.step op) (s'.step op) := by
  cases op with
  | begin => exact h.even_begin
  | read id k => exact h.even_read id hop served served'
  | write id k p =>
    exact h.even_onTxn id _ (fun g t => ((t.write k p).1, g, (t.write k p).2))
      (fun _ => ⟨rfl, rfl⟩) fun _ _ => rfl
  | delete id k =>
    exact h.even_onTxn id _ (fun g t => ((t.delete k).1, g, (t.delete k).2))
      (fun _ => ⟨rfl, rfl⟩) fun _ _ => rfl
  | commit id => exact h.even_commit id served served'
  | abort id =>
    refine h.even_onTxn id _ (fun g t => g.abort t) (fun t => ?_) fun g t => ?_
    · simp only [Engine.abort]
      split_ifs <;> exact ⟨rfl, rfl⟩
    · simp only [Engine.abort]
      split_ifs <;> rfl
  | drop id => exact h.even_drop id
  | collect => exact absurd rfl plain
  | issue => exact h.even_issue
  | flush => exact h.even_flush served served'

/-! ### What is stored -/

theorem installs_eq (h : s.Alike s' a a') (op : Op) (r : Reply) :
    s'.installs op r = s.installs op r := by
  cases op <;> try rfl
  cases r <;> try rfl
  rw [installs, installs, h.held_eq]

theorem getLast?_advance (h : s.Alike s' a a') (new : Installs) (k : RecordKey) :
    (a'.advance new k).getLast? = (a.advance new k).getLast? := by
  rw [Chains.advance, Chains.advance, Chains.draft_congr h.latest_eq]
  cases new k with
  | none => exact h.last_eq k
  | some i => rw [Chain.getLast?_extend, Chain.getLast?_extend]

theorem keeps_next {k : RecordKey} {ws : List (Timestamp × Option Payload)}
    (hm : s.Moves a s' op r b) (hs : s.Stands a) (ht : s.Timely) (h : (a k).Keeps ws s.Behind) :
    (b k).Keeps (ws ++ ((s.installs op r k).map fun i => (i.1, i.2.payload)).toList) s'.Behind := by
  refine hm.keeps_next_of hs h (fun w _ hw => ?_) fun low hpassed hlow ts hts => ?_
  · exact ⟨UInt64.le_trans hw.1 hm.clock_le, hm.passed hw.1 hw.2⟩
  · exact ⟨UInt64.le_trans (UInt64.le_trans hts (hlow ht)) hm.clock_le, hpassed.mono hts⟩

theorem next (h : s.Alike s' a a') (hop : op.Fits) (plain : op ≠ .collect)
    (served : s.engine.store.Served (s.step op).2.engine.store)
    (served' : s'.engine.store.Served (s'.step op).2.engine.store) :
    Even (s.step op) (s'.step op) ∧ ∃ b b', (s.step op).2.Alike (s'.step op).2 b b' := by
  have heven := h.even hop plain served served'
  obtain ⟨b, hm⟩ := exists_moves h.stands hop
  obtain ⟨b', hm'⟩ := exists_moves h.stands' hop
  rw [heven.reply_eq] at hm'
  have hnew := h.installs_eq op (s.step op).1
  refine ⟨heven, b, b', heven.held_eq, heven.clock_eq, ?_, hm.stands h.stands hop,
    hm'.stands h.stands' hop, hm.timely h.timely, hm'.timely h.timely', fun k => ?_, fun k => ?_⟩
  · rcases h.lastId_eq with hid | hlast
    · by_cases hbegin : op = .begin
      · rw [hbegin, lastId_begin, lastId_begin, hid]
        exact Or.inl rfl
      · rcases hm.lastId_eq hbegin with he | hlast
        · rcases hm'.lastId_eq hbegin with he' | hlast
          · exact Or.inl (he'.trans (hid.trans he.symm))
          · exact Or.inr (hm.clock_eq_greatest (h.clock_eq ▸ hlast))
        · exact Or.inr (hm.clock_eq_greatest hlast)
    · exact Or.inr (hm.clock_eq_greatest hlast)
  · obtain ⟨hlinked, hspares⟩ := hm.chain_next h.stands k
    obtain ⟨hlinked', hspares'⟩ := hm'.chain_next h.stands' k
    rw [hspares.getLast?_eq hlinked, hspares'.getLast?_eq hlinked', hnew, h.getLast?_advance]
  · obtain ⟨ws, hk, hk'⟩ := h.keeps k
    have hkeeps' := keeps_next hm' h.stands' h.timely' hk'
    rw [hnew] at hkeeps'
    exact ⟨_, keeps_next hm h.stands h.timely hk, hkeeps'⟩

theorem collect_left (h : s.Alike s' a a') : ∃ b, (s.step .collect).2.Alike s' b a' := by
  obtain ⟨b, hm⟩ := exists_moves h.stands (show Op.Fits .collect from trivial)
  have hclock : (s.step .collect).2.engine.clock = s.engine.clock := rfl
  refine ⟨b, h.held_eq, h.clock_eq, h.lastId_eq, hm.stands h.stands trivial, h.stands',
    hm.timely h.timely, h.timely', fun k => ?_, fun k => ?_⟩
  · obtain ⟨hlinked, hspares⟩ := hm.chain_next h.stands k
    rw [h.last_eq, hspares.getLast?_eq hlinked]
    rfl
  · obtain ⟨ws, hk, hk'⟩ := h.keeps k
    have hkeeps := keeps_next hm h.stands h.timely hk
    exact ⟨ws, by simpa [installs] using hkeeps, hk'⟩

end Alike

/-! ## Runs side by side -/

/-- What clients see of an operation: what was asked and answered, and the handles they then hold. -/
structure Glimpse where
  op : Op
  reply : Reply
  held : OrderedMap TxnId Txn

def watch (s : Session) : List Op → List Glimpse
  | [] => []
  | op :: rest =>
    { op, reply := (s.step op).1, held := (s.step op).2.held } :: (s.step op).2.watch rest

/-- What is seen of operations that are no collections. -/
def Glimpse.plain (seen : List Glimpse) : List Glimpse :=
  seen.filter fun e => decide (e.op ≠ .collect)

end Session

/-- The operations that are no collections. -/
def Op.plain (ops : List Op) : List Op := ops.filter fun op => decide (op ≠ .collect)

theorem Op.fits_of_plain {ops ops' : List Op} (h : Op.plain ops' = Op.plain ops)
    (fits : ∀ op ∈ ops, op.Fits) : ∀ op ∈ ops', op.Fits := by
  intro op hop
  by_cases hcollect : op = .collect
  · rw [hcollect]
    trivial
  · have hmem : op ∈ Op.plain ops' := List.mem_filter.2 ⟨hop, by simpa using hcollect⟩
    rw [h] at hmem
    exact fits op (List.mem_filter.1 hmem).1

namespace Session

variable {s s' : Session} {a a' : Chains}

theorem Stands.called_run (h : s.Stands a) (ops : List Op) (hops : ∀ op ∈ ops, op.Fits) :
    s.engine.store.Called (s.run ops).2.engine.store := by
  induction ops generalizing s a with
  | nil => exact (Store.Kept.refl _).toCalled
  | cons op rest ih =>
    have hop := hops op List.mem_cons_self
    obtain ⟨b, hm⟩ := exists_moves h hop
    exact hm.called.trans (ih (hm.stands h hop) fun op' hop' =>
      hops op' (List.mem_cons_of_mem _ hop'))

/-- A run in which no call fails, beside one without collections on a medium that does not fail. -/
theorem Alike.run (h : s.Alike s' a a') (ops : List Op) (hops : ∀ op ∈ ops, op.Fits)
    (served : s.engine.store.Served (s.run ops).2.engine.store)
    (reliable : s'.engine.store.medium.plan = Plan.reliable) :
    Glimpse.plain (s.watch ops) = s'.watch (Op.plain ops) ∧
      ∃ b b', (s.run ops).2.Alike (s'.run (Op.plain ops)).2 b b' := by
  induction ops generalizing s s' a a' with
  | nil => exact ⟨rfl, a, a', h⟩
  | cons op rest ih =>
    have hop := hops op List.mem_cons_self
    have hrest : ∀ op' ∈ rest, op'.Fits := fun op' hop' => hops op' (List.mem_cons_of_mem _ hop')
    obtain ⟨c, hm⟩ := exists_moves h.stands hop
    have hlater := (hm.stands h.stands hop).called_run rest hrest
    have hstep : s.engine.store.Served (s.step op).2.engine.store := served.first hlater
    have hserved : (s.step op).2.engine.store.Served ((s.step op).2.run rest).2.engine.store :=
      served.second hm.called
    by_cases hcollect : op = .collect
    · subst hcollect
      obtain ⟨b, hb⟩ := h.collect_left
      exact ih hb hrest hserved reliable
    · obtain ⟨heven, b, b', hb⟩ := h.next hop hcollect hstep (Store.served_of_reliable reliable _)
      obtain ⟨c', hm'⟩ := exists_moves h.stands' hop
      obtain ⟨hwatch, hrun⟩ := ih hb hrest hserved (hm'.called.plan_eq.trans reliable)
      have hplain : Op.plain (op :: rest) = op :: Op.plain rest :=
        List.filter_cons_of_pos (by simpa using hcollect)
      rw [hplain]
      refine ⟨?_, hrun⟩
      rw [watch, watch, Glimpse.plain, List.filter_cons_of_pos (by simpa using hcollect)]
      rw [heven.reply_eq, heven.held_eq, ← hwatch]
      rfl

/-- What is the same at the end for clients and for those who look into the store: handles and
clock, the open versions, and all conflicts that validation can find. -/
structure SameFor (s s' : Session) : Prop where
  held_eq : s'.held = s.held
  clock_eq : s'.engine.clock = s.engine.clock
  latest_eq : ∀ k : RecordKey, k.Fits → ∃ v,
    (({ medium := Medium.ofTree s.engine.store.tree } : Store).latest? k).1 = .ok v ∧
      (({ medium := Medium.ofTree s'.engine.store.tree } : Store).latest? k).1 = .ok v
  conflicts_eq : ∀ (reads : ReadSet) (upper : Timestamp), (∀ e ∈ reads.toList, e.1.Fits) →
    s'.engine.store.medium.readConflicts reads upper =
      s.engine.store.medium.readConflicts reads upper

theorem sameFor_of_alike {x : Session} {c c' : Chains} (h : s.Alike x a c) (h' : s'.Alike x a' c') :
    s.SameFor s' := by
  obtain rfl := h.stands'.encodes.unique h'.stands'.encodes
  have hlatest : ∀ k, (a' k).latest? = (a k).latest? := fun k =>
    (h'.latest_eq k).symm.trans (h.latest_eq k)
  refine ⟨h'.held_eq.symm.trans h.held_eq, h'.clock_eq.symm.trans h.clock_eq, fun k hk => ?_,
    fun reads upper hreads => ?_⟩
  · refine ⟨(a k).latest?, Store.reading_ofTree (h.stands.encodes.answers_latest? hk), ?_⟩
    rw [← hlatest]
    exact Store.reading_ofTree (h'.stands.encodes.answers_latest? hk)
  · rw [h.stands.encodes.readConflicts_eq hreads, h'.stands.encodes.readConflicts_eq hreads,
      Chains.conflictOfRead?_congr hlatest]

end Session

namespace Tree

open Engine (withClock)

theorem Encodes.alike {store : Store} {a : Chains} (h : store.tree.Encodes a) (ha : a.Sound)
    (clock : Clock) (every : Option UInt64) :
    (withClock store clock every).session.Alike
      (withClock { medium := Medium.ofTree store.tree } clock).session a a := by
  have hnone : ∀ id, (∅ : Registry).get? id = none := OrderedMap.get?_empty
  refine ⟨rfl, rfl, Or.inl rfl, stands_session h ha, stands_session h ha,
    fun id r hr => ?_, fun id r hr => ?_, fun _ => rfl, fun k => ?_⟩
  · cases (hnone id).symm.trans hr
  · cases (hnone id).symm.trans hr
  have hall {past : Timestamp → Prop} : (a k).Keeps ((a k).map Version.mark) past :=
    ⟨0, rfl, fun hne => List.length_pos_of_ne_nil hne, fun hpos => absurd hpos (Nat.lt_irrefl 0)⟩
  exact ⟨_, hall, hall⟩

/-- Two engines with the same clock on the same tree, asked for the same but for collections, and
collecting on their own after different numbers of commits: if no call fails, clients see the same
all along, and the same is stored at the end as far as commits can tell. -/
theorem Left.collections_unnoticed {store store' : Store} {past : List Chapter}
    (left : Left store.tree past) (same : store'.tree = store.tree) (clock : Clock)
    (every every' : Option UInt64) {ops ops' : List Op} (fits : ∀ op ∈ ops, op.Fits)
    (plain : Op.plain ops' = Op.plain ops)
    (served : store.Served ((withClock store clock every).after ops).engine.store)
    (served' : store'.Served ((withClock store' clock every').after ops').engine.store) :
    Glimpse.plain ((withClock store' clock every').session.watch ops') =
        Glimpse.plain ((withClock store clock every).session.watch ops) ∧
      ((withClock store clock every).after ops).SameFor
        ((withClock store' clock every').after ops') := by
  obtain ⟨a, hencodes, hsound, -⟩ := left.exists_chains
  have hencodes' : store'.tree.Encodes a := same ▸ hencodes
  obtain ⟨hwatch, b, c, hb⟩ := (hencodes.alike hsound clock every).run ops fits served rfl
  obtain ⟨hwatch', b', c', hb'⟩ := (hencodes'.alike hsound clock every').run ops'
    (Op.fits_of_plain plain fits) served' rfl
  rw [same, plain] at hwatch' hb'
  exact ⟨hwatch'.trans hwatch.symm, sameFor_of_alike hb hb'⟩

/-- The version that the first commit made is closed by a later one and collected in one of two runs.
No other difference is seen. -/
theorem collections_unnoticed_overlap :
    let ops := Op.overlap ++ [.delete ⟨3⟩ ⟨"t", .int 1⟩, .commit ⟨3⟩]
    let ops' := (ops ++ [.collect]).flatMap fun op => [.collect, op]
    Left Store.empty.tree [] ∧ (∀ op ∈ ops, op.Fits) ∧ Op.plain ops' = Op.plain ops ∧
      Store.empty.Served ((withClock Store.empty {}).after ops).engine.store ∧
      Store.empty.Served ((withClock Store.empty {} (some 1)).after ops').engine.store ∧
      Glimpse.plain ((withClock Store.empty {} (some 1)).session.watch ops') =
        Glimpse.plain ((withClock Store.empty {}).session.watch ops) ∧
      ((withClock Store.empty {}).after ops).SameFor
        ((withClock Store.empty {} (some 1)).after ops') ∧
      ((withClock Store.empty {}).after ops).engine.store.tree.size = 2 ∧
      ((withClock Store.empty {} (some 1)).after ops').engine.store.tree.size = 1 := by
  intro ops ops'
  have fits : ∀ op ∈ ops, op.Fits := by
    intro op hop
    rcases List.mem_append.1 hop with hop | hop
    · exact Op.fits_overlap op hop
    · rcases List.mem_cons.1 hop with rfl | hop
      · exact Op.fits_key 1
      · rw [List.mem_singleton.1 hop]
        trivial
  have plain : Op.plain ops' = Op.plain ops := by decide +kernel
  have served := Store.served_of_reliable (s := Store.empty) rfl
  obtain ⟨hwatch, hsame⟩ := @Left.collections_unnoticed Store.empty Store.empty [] Left.empty rfl {}
    none (some 1) ops ops' fits plain (served _) (served _)
  exact ⟨Left.empty, fits, plain, served _, served _, hwatch, hsame, by decide +kernel,
    by decide +kernel⟩

end Tree

end Mvcc
