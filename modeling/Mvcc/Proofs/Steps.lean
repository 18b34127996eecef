import Mvcc.Proofs.Maxima
import Mvcc.Proofs.Session

/-!
# What one operation does, whatever is stored

`Session.Moves` speaks of the chains that a tree stands for. What becomes of clock, registry, handles
and counters does not depend on them: it is the same on a tree that no engine would leave, or that
cannot be read at all.

* `Probe.Yields`: what is true of every answer of a probe, with `yields_judge`.
* `Store.Unmoved`: the versions and the greatest timestamp stay.
* `Engine.Tries`, `tries_attempt`: how the attempt at a commit ends.
* `Session.Acts`, `acts_step`: what an operation does to everything but the versions.
* `Txn.Moved`, `Acts.held_cases`: what becomes of a handle.
-/

namespace Mvcc

namespace OrderedMap

variable {κ β γ : Type} [Ord κ]

theorem isEmpty_eq_of_keys_eq {m : OrderedMap κ β} {m' : OrderedMap κ γ} (h : m.keys = m'.keys) :
    m.isEmpty = m'.isEmpty := by
  rw [Bool.eq_iff_iff, isEmpty, isEmpty, List.isEmpty_iff, List.isEmpty_iff,
    ← List.map_eq_nil_iff (f := fun e : κ × β => e.1), ← List.map_eq_nil_iff (f := fun e : κ × γ => e.1)]
  exact Eq.congr_left h

end OrderedMap

/-! ## Answers of probes -/

namespace Probe

variable {α β : Type}

/-- Whatever a probe answers on any device, it is so. -/
def Yields (p : Probe α) (post : α → Prop) : Prop :=
  ∀ d tally a, (p.exec d tally).1 = .ok a → post a

theorem yields_pure {post : α → Prop} {a : α} (h : post a) : (pure a : Probe α).Yields post := by
  intro d tally b hb
  cases hb
  exact h

theorem yields_throw (e : StoreError) (post : α → Prop) : (throw e : Probe α).Yields post := by
  intro d tally b hb
  cases hb

theorem Yields.bind {p : Probe α} {f : α → Probe β} {pre : α → Prop} {post : β → Prop}
    (hp : p.Yields pre) (hf : ∀ a, pre a → (f a).Yields post) : (p >>= f).Yields post := by
  intro d tally b hb
  rw [exec_bind] at hb
  rcases hr : p.exec d tally with ⟨r, tally'⟩
  rw [hr] at hb
  cases r with
  | error e => cases hb
  | ok a =>
    have hpre : pre a := hp d tally a (by rw [hr])
    exact hf a hpre d tally' b hb

theorem yields_bind {p : Probe α} {f : α → Probe β} {post : β → Prop}
    (hf : ∀ a, (f a).Yields post) : (p >>= f).Yields post :=
  @Yields.bind α β p f (fun _ => True) post (fun _ _ _ _ => trivial) fun a _ => hf a

theorem yields_ofRule (x : Except Refusal α) : (ofRule x).Yields fun a => x = .ok a := by
  cases x with
  | error e => exact yields_throw _ _
  | ok a => exact yields_pure rfl

theorem yields_mapValuesM {κ γ : Type} [Ord κ] (m : OrderedMap κ α) (f : κ → α → Probe γ) :
    (m.mapValuesM f).Yields fun r => r.keys = m.keys :=
  yields_bind fun done => yields_pure done.2

end Probe

/-- What a judgement says of the writes of a transaction. -/
def Judgement.Suits (t : Txn) : Judgement → Prop
  | .conflict _ => True
  | .readOnly => t.writes.isEmpty = true
  | .ready drafts => t.writes.isEmpty = false ∧ drafts.keys = t.writes.keys

theorem Probe.yields_judge (t : Txn) (upper : Timestamp) :
    (Probe.judge t upper).Yields (Judgement.Suits t) := by
  refine yields_bind fun first => ?_
  cases first with
  | some c => exact yields_pure trivial
  | none =>
    refine yields_bind fun second => ?_
    cases second with
    | some c => exact yields_pure trivial
    | none =>
      show (if t.writes.isEmpty = true then _ else _ : Probe Judgement).Yields _
      split_ifs with hwrites
      · exact yields_pure hwrites
      · refine (yields_mapValuesM t.writes Probe.draft).bind fun drafts hkeys => yields_pure ?_
        exact ⟨Bool.not_eq_true _ ▸ hwrites, hkeys⟩

theorem Probe.yields_installation (seen : List RecordKey) (vs : List Version) :
    (Probe.installation seen vs).Yields fun edits => vs ≠ [] → edits ≠ [] := by
  cases vs with
  | nil => exact yields_pure fun h => absurd rfl h
  | cons v rest =>
    rw [installation]
    split_ifs
    · exact yields_throw _ _
    · exact yields_throw _ _
    · refine yields_bind fun last => (yields_ofRule _).bind fun written hwritten => ?_
      refine yields_bind fun more => yields_pure fun _ hnil => ?_
      have hwritten' : written = [] := List.map_eq_nil_iff.1 (List.append_eq_nil_iff.1 hnil).1
      rw [hwritten'] at hwritten
      -- what is written for a version includes the version
      cases last with
      | none => cases hwritten
      | some last =>
        rw [Chain.succeed] at hwritten
        split_ifs at hwritten <;> cases hwritten

/-! ## Stores -/

namespace Store

variable {s s' s'' : Store}

/-- The versions and the greatest timestamp stay. -/
structure Unmoved (s s' : Store) : Prop where
  tree_eq : s'.tree = s.tree
  maxTs_eq : s'.maxTs = s.maxTs

theorem Unmoved.refl (s : Store) : s.Unmoved s := ⟨rfl, rfl⟩

theorem Unmoved.trans (h : s.Unmoved s') (h' : s'.Unmoved s'') : s.Unmoved s'' :=
  ⟨h'.tree_eq.trans h.tree_eq, h'.maxTs_eq.trans h.maxTs_eq⟩

theorem unmoved_reading {α : Type} (s : Store) (p : Probe α) : s.Unmoved (s.reading p).2 := ⟨rfl, rfl⟩

theorem max_zero (ts : Timestamp) : max ts 0 = ts := by
  show (if ts ≤ 0 then 0 else ts) = ts
  split_ifs with hle
  · exact (UInt64.le_zero_iff.1 hle).symm
  · rfl

theorem save_change (s : Store) (c : Call) (f : Tree → Tree) (ts : Timestamp) :
    (s.save (·.change c f) ts).1 = .ok () ∧ (s.save (·.change c f) ts).2.tree = f s.tree ∧
        (s.save (·.change c f) ts).2.maxTs = max s.maxTs ts ∨
      (∃ e, (s.save (·.change c f) ts).1 = .error e) ∧ s.Unmoved (s.save (·.change c f) ts).2 := by
  obtain ⟨r, s', heq, -, hr⟩ := exists_save s c f ts
  rw [heq]
  rcases hr with ⟨rfl, htree, hmax⟩ | ⟨he, -, hkept⟩
  · exact Or.inl ⟨rfl, htree, hmax⟩
  · exact Or.inr ⟨he, hkept.tree_eq, hkept.maxTs_eq⟩

theorem unmoved_flush (s : Store) : s.Unmoved s.flush.2 := by
  obtain ⟨r, s', heq, hkept, -⟩ := exists_flush s
  rw [heq]
  exact ⟨hkept.tree_eq, hkept.maxTs_eq⟩

theorem maxTs_prune (s : Store) (ts : Timestamp) : (s.prune ts).2.maxTs = s.maxTs := by
  rw [prune]
  rcases hr : s.reading (Probe.ended ts) with ⟨_ | _ | ⟨place, places⟩, s₁⟩
  all_goals
    have hmax : s₁.maxTs = s.maxTs := by
      rw [← maxTs_reading s (Probe.ended ts), hr]
  · exact hmax
  · exact hmax
  · have hsave := save_change s₁ .applyBatch (·.apply ((place :: places).map .remove)) 0
    rcases hs : s₁.save (·.applyBatch ((place :: places).map .remove)) 0 with ⟨r, s₂⟩
    rw [show s₁.save (·.change .applyBatch (·.apply ((place :: places).map .remove))) 0 = (r, s₂)
      from hs] at hsave
    simp only [hs]
    rcases hsave with ⟨hok, -, hmax'⟩ | ⟨⟨e, he⟩, hkept⟩
    · obtain rfl : r = .ok () := hok
      exact hmax'.trans ((max_zero _).trans hmax)
    · obtain rfl : r = .error e := he
      exact hkept.maxTs_eq.trans hmax

theorem foldl_max_beginTs {vs : List Version} {ts : Timestamp} (hne : vs ≠ [])
    (h : ∀ v ∈ vs, v.beginTs = ts) : (vs.map (·.beginTs)).foldl max 0 = ts := by
  obtain ⟨v, hv, hbegin⟩ := List.mem_map.1 (Timestamp.foldl_max_mem (mt List.map_eq_nil_iff.1 hne))
  exact hbegin.symm.trans (h v hv)

/-- An install of versions of one time takes place and is remembered, or all stays as it is. -/
theorem install_cases (s : Store) {vs : List Version} {ts : Timestamp} (hne : vs ≠ [])
    (h : ∀ v ∈ vs, v.beginTs = ts) :
    (s.install vs).1 = .ok () ∧ (s.install vs).2.maxTs = max s.maxTs ts ∨
      (∃ e, (s.install vs).1 = .error e) ∧ s.Unmoved (s.install vs).2 := by
  have hread := s.unmoved_reading (Probe.installation [] vs)
  have hedits : ∀ edits, (s.reading (Probe.installation [] vs)).1 = .ok edits → edits ≠ [] :=
    fun edits he => Probe.yields_installation [] vs _ _ edits he hne
  rw [install]
  rcases hr : s.reading (Probe.installation [] vs) with ⟨_ | _ | ⟨edit, edits⟩, s₁⟩
  all_goals rw [hr] at hread hedits
  · exact Or.inr ⟨⟨_, rfl⟩, hread⟩
  · exact absurd rfl (hedits [] rfl)
  · rcases s₁.save_change .applyBatch (·.apply (edit :: edits))
      ((vs.map (·.beginTs)).foldl max 0) with ⟨hok, -, hmax⟩ | ⟨he, hkept⟩
    · refine Or.inl ⟨hok, hmax.trans ?_⟩
      rw [foldl_max_beginTs hne h, hread.maxTs_eq]
    · exact Or.inr ⟨he, hread.trans hkept⟩

end Store

/-! ## The attempt at a commit -/

/-- Whether an answer tells that something began, ended or was issued. -/
def Event.tells : Event → Bool
  | ⟨.begin, .began ..⟩ | ⟨.begin, .failed _⟩ | ⟨.issue, .issued _⟩ | ⟨.commit _, .committed _⟩ => true
  | ⟨.read .., .failed (.storage _)⟩ | ⟨.commit _, .failed (.storage _)⟩ => true
  | ⟨.commit _, .failed (.conflict _)⟩ | ⟨.commit _, .failed (.exhausted _)⟩ => true
  | _ => false

/-- The handle of a transaction that was aborted. -/
def Txn.aborted (t : Txn) : Txn := { t with status := .aborted, writes := ∅ }

/-- The two moves of a commit. The transaction is judged, and then it is committed, with its timestamp
and what was made of its writes, or aborted. -/
inductive Txn.Judged (t : Txn) : Reply → Txn → Prop
  | aborted {e : TxnError} (may : t.status.mayBecome .validating = true) :
    Judged t (.failed e) ((t.moveTo .validating may).moveTo .aborted rfl)
  | committed {ts : Timestamp} {ws : WriteSet} (may : t.status.mayBecome .validating = true) :
    Judged t (.committed ts)
      (Txn.moveTo { t.moveTo .validating may with commitTs := some ts, writes := ws } .committed rfl)

/-- What an operation makes of the handle `id`, move by move. -/
inductive Txn.Moved (t : Txn) (id : TxnId) : Op → Reply → Txn → Prop
  | seen {k : RecordKey} {found : Option Payload} : Moved t id (.read id k) (.found found) { t with
      reads := t.reads.record k { readTs := t.beginTs, live := found.isSome } }
  | put {op : Op} {k : RecordKey} {p : Option Payload} (put : op.put? = some (id, k, p)) :
    Moved t id op .done { t with writes := t.writes.put k p }
  | aborted {op : Op} {r : Reply} (early : ∀ i, op ≠ .commit i)
    (may : t.status.mayBecome .aborted = true) : Moved t id op r (t.moveTo .aborted may)
  | judged {i : TxnId} {r : Reply} {u : Txn} (judged : t.Judged r u) : Moved t id (.commit i) r u

namespace Engine

variable {g g' : Engine} {t : Txn}

/-- How the attempt at a commit ends, whatever is stored. -/
inductive Tries (g : Engine) (t : Txn) (g' : Engine) : Except TxnError Outcome → Prop
  /-- A timestamp may have been used up. -/
  | refused {e : TxnError} (tells : ∀ id, Event.tells ⟨.commit id, .failed e⟩ = true)
    (clock : g'.clock = g.clock ∨ g.clock.tick? = some g'.clock)
    (engine : g' = { g with store := g'.store, clock := g'.clock })
    (store : g.store.Unmoved g'.store) : Tries g t g' (.error e)
  | readOnly (writes : t.writes.isEmpty = true) (engine : g' = { g with store := g'.store })
    (store : g.store.Unmoved g'.store) :
    Tries g t g' (.ok { commitTs := t.beginTs, writes := t.writes, collects := false })
  | wrote {o : Outcome} (writes : t.writes.isEmpty = false)
    (tick : g.clock.tick? = some g'.clock) (ts : o.commitTs = g'.clock.last)
    (keys : o.writes.keys = t.writes.keys)
    (numbered : ∀ k w, o.writes.get? k = some w → w.number.isSome = true)
    (engine : g' = { g with
      store := g'.store, clock := g'.clock, commitsSince := g'.commitsSince })
    (maxTs : g'.store.maxTs = max g.store.maxTs g'.clock.last) : Tries g t g' (.ok o)

theorem tries_installDrafts (g : Engine) {drafts : OrderedMap RecordKey Draft}
    (writes : t.writes.isEmpty = false) (keys : drafts.keys = t.writes.keys) :
    g.Tries t (g.installDrafts drafts).2 (g.installDrafts drafts).1 := by
  rw [installDrafts]
  cases htick : g.clock.tick? with
  | none => exact .refused (fun _ => rfl) (Or.inl rfl) rfl (Store.Unmoved.refl _)
  | some clock =>
    have hne : (drafts.toList.map fun e => e.2.version e.1 clock.last) ≠ [] := by
      intro hnil
      have hempty : drafts.isEmpty = true := by
        rw [OrderedMap.isEmpty, List.map_eq_nil_iff.1 hnil]
        rfl
      rw [OrderedMap.isEmpty_eq_of_keys_eq keys, writes] at hempty
      cases hempty
    have hbegin : ∀ v ∈ drafts.toList.map fun e => e.2.version e.1 clock.last,
        v.beginTs = clock.last := by
      intro v hv
      obtain ⟨e, -, rfl⟩ := List.mem_map.1 hv
      rfl
    have hinstall := g.store.install_cases hne hbegin
    rcases hr : g.store.install (drafts.toList.map fun e => e.2.version e.1 clock.last) with ⟨r, s⟩
    rw [hr] at hinstall
    simp only [hr]
    rcases hinstall with ⟨hok, hmax⟩ | ⟨⟨e, he⟩, hstore⟩
    · obtain rfl : r = .ok () := hok
      refine .wrote writes htick rfl ((OrderedMap.keys_mapValues _ _).trans keys) ?_ rfl hmax
      intro k w hw
      rw [OrderedMap.get?_mapValues, Option.map_eq_some_iff] at hw
      obtain ⟨d, -, rfl⟩ := hw
      rfl
    · obtain rfl : r = .error e := he
      exact .refused (fun _ => rfl) (Or.inr htick) rfl hstore

theorem tries_attempt (g : Engine) (t : Txn) : g.Tries t (g.attempt t).2 (g.attempt t).1 := by
  have hread := g.store.unmoved_reading (Probe.judge t g.clock.last)
  have hsuits : ∀ j, (g.store.reading (Probe.judge t g.clock.last)).1 = .ok j →
      Judgement.Suits t j := fun j hj => Probe.yields_judge t g.clock.last _ _ j hj
  rw [attempt]
  rcases hr : g.store.reading (Probe.judge t g.clock.last) with ⟨_ | _ | _ | drafts, s⟩
  all_goals rw [hr] at hread hsuits
  · exact .refused (fun _ => rfl) (Or.inl rfl) rfl hread
  · exact .refused (fun _ => rfl) (Or.inl rfl) rfl hread
  · exact .readOnly (hsuits _ rfl) rfl hread
  · obtain ⟨hwrites, hkeys⟩ := hsuits _ rfl
    have hinstall := tries_installDrafts { g with store := s } hwrites hkeys
    simp only
    generalize ({ g with store := s } : Engine).installDrafts drafts = x at hinstall ⊢
    obtain ⟨r, g'⟩ := x
    cases hinstall with
    | refused tells clock engine store => exact .refused tells clock engine (hread.trans store)
    | readOnly writes => rw [hwrites] at writes; cases writes
    | wrote writes tick ts keys numbered engine maxTs =>
      exact .wrote writes tick ts keys numbered engine (by rw [maxTs, hread.maxTs_eq])

theorem collectIfDue_eq (g : Engine) (o : Outcome) :
    ∃ s, g.collectIfDue o = { g with store := s } ∧ s.maxTs = g.store.maxTs := by
  rw [collectIfDue]
  split_ifs
  · exact ⟨_, rfl, Store.maxTs_prune _ _⟩
  · exact ⟨g.store, rfl, rfl⟩

/-- How a commit ends, whatever is stored. -/
inductive Closes (g : Engine) (t : Txn) (g' : Engine) : Txn → Except TxnError Timestamp → Prop
  | refused {e : TxnError} (tells : ∀ id, Event.tells ⟨.commit id, .failed e⟩ = true)
    (clock : g'.clock = g.clock ∨ g.clock.tick? = some g'.clock)
    (engine : g' = { g with
      store := g'.store
      clock := g'.clock
      registry := g.registry.erase t.id
      statistics := { (g.countRefusal e).statistics with aborted := g.statistics.aborted + 1 } })
    (store : g.store.Unmoved g'.store) : Closes g t g' t.aborted (.error e)
  | readOnly (writes : t.writes.isEmpty = true)
    (engine : g' = { g with
      store := g'.store
      registry := g.registry.erase t.id
      statistics := { g.statistics with readOnlyCommitted := g.statistics.readOnlyCommitted + 1 } })
    (store : g.store.Unmoved g'.store) :
    Closes g t g' { t with status := .committed, commitTs := some t.beginTs } (.ok t.beginTs)
  | wrote {ws : WriteSet} (writes : t.writes.isEmpty = false)
    (tick : g.clock.tick? = some g'.clock) (keys : ws.keys = t.writes.keys)
    (numbered : ∀ k w, ws.get? k = some w → w.number.isSome = true)
    (engine : g' = { g with
      store := g'.store
      clock := g'.clock
      registry := g.registry.erase t.id
      statistics := { g.statistics with committed := g.statistics.committed + 1 }
      commitsSince := g'.commitsSince })
    (maxTs : g'.store.maxTs = max g.store.maxTs g'.clock.last) :
    Closes g t g' { t with
      status := .committed, commitTs := some g'.clock.last, writes := ws } (.ok g'.clock.last)

theorem finish_note (g : Engine) (id : TxnId) (status : Status) (store : Store) (clock : Clock)
    (statistics : Statistics) (count : Nat) :
    ({ g.note id status with
        store, clock, registry := (g.note id status).registry.erase id, statistics,
        commitsSince := count } : Engine) =
      { g with store, clock, registry := g.registry.erase id, statistics, commitsSince := count } :=
  congrArg (fun registry => { g with store, clock, registry, statistics, commitsSince := count })
    (OrderedMap.erase_modify _ _ _)

theorem exists_closes (g : Engine) (hactive : t.status = .active) :
    ∃ r g' t', g.commit t = (r, g', t') ∧ g.Closes t g' t' r := by
  obtain ⟨r, g', hattempt, htries⟩ : ∃ r g', (g.note t.id .validating).attempt
      (t.moveTo .validating (active_mayBecome_validating hactive)) = (r, g') ∧
        (g.note t.id .validating).Tries
          (t.moveTo .validating (active_mayBecome_validating hactive)) g' r :=
    ⟨_, _, rfl, tries_attempt _ _⟩
  rw [commit, dif_pos hactive]
  simp only [hattempt]
  cases htries with
  | @refused e tells clock engine store =>
    obtain ⟨st, c, registry, lastId, statistics, every, count⟩ := g'
    cases engine
    refine ⟨_, _, _, rfl, ?_⟩
    cases e
    all_goals
      refine .refused tells clock ?_ store
      exact g.finish_note t.id .validating ..
  | readOnly writes engine store =>
    obtain ⟨st, c, registry, lastId, statistics, every, count⟩ := g'
    cases engine
    refine ⟨_, _, _, rfl, ?_⟩
    rw [countCommit, if_pos writes]
    refine .readOnly writes ?_ store
    exact g.finish_note t.id .validating ..
  | @wrote o writes tick ts keys numbered engine maxTs =>
    have hwrites : ¬ o.writes.isEmpty = true := by
      rw [OrderedMap.isEmpty_eq_of_keys_eq keys]
      exact Bool.eq_false_iff.1 writes
    obtain ⟨s', hcollect, hmax⟩ := collectIfDue_eq (g'.countCommit o) o
    rw [countCommit, if_neg hwrites] at hcollect hmax
    refine ⟨_, _, _, rfl, ?_⟩
    rw [countCommit, if_neg hwrites, hcollect, ts]
    refine .wrote writes tick keys numbered ?_ (hmax.trans maxTs)
    obtain ⟨st, c, registry, lastId, statistics, every, count⟩ := g'
    cases engine
    exact g.finish_note t.id .validating ..

end Engine

/-! ## Operations -/

namespace Session

/-- What one operation does to everything but the versions, whatever is stored. -/
inductive Acts (s s' : Session) : Op → Reply → Prop
  /-- The operation is refused, or there is nothing to do. -/
  | idle {op : Op} {r : Reply} (silent : Event.tells ⟨op, r⟩ = false) (same : s' = s) : Acts s s' op r
  /-- A collection or a flush. -/
  | tended {op : Op} {r : Reply} (silent : Event.tells ⟨op, r⟩ = false)
    (engine : s'.engine = { s.engine with store := s'.engine.store })
    (maxTs : s'.engine.store.maxTs = s.engine.store.maxTs)
    (tree : op ≠ .collect → s'.engine.store.tree = s.engine.store.tree)
    (held : s'.held = s.held) : Acts s s' op r
  /-- No timestamp is left to begin with, but a name is used up. -/
  | spent (last : s.engine.clock.last = Timestamp.greatest)
    (engine : s'.engine = { s.engine with lastId := s.engine.lastId + 1 })
    (held : s'.held = s.held) : Acts s s' .begin (.failed (.exhausted s.engine.clock.last))
  | began {id : TxnId} (name : id.number = s.engine.lastId + 1)
    (tick : s.engine.clock.tick? = some s'.engine.clock)
    (engine : s'.engine = { s.engine with
      clock := s'.engine.clock
      lastId := id.number
      registry := s.engine.registry.insert id { beginTs := s'.engine.clock.last }
      statistics := { s.engine.statistics with begun := s.engine.statistics.begun + 1 } })
    (held : s'.held = s.held.insert id { id, beginTs := s'.engine.clock.last }) :
    Acts s s' .begin (.began id s'.engine.clock.last)
  | issued (tick : s.engine.clock.tick? = some s'.engine.clock)
    (engine : s'.engine = { s.engine with clock := s'.engine.clock }) (held : s'.held = s.held) :
    Acts s s' .issue (.issued s'.engine.clock.last)
  /-- A read of the snapshot. -/
  | seen {id : TxnId} {k : RecordKey} {t : Txn} {found : Option Payload} (active : s.Active id t)
    (engine : s'.engine = { s.engine with store := s'.engine.store })
    (store : s.engine.store.Unmoved s'.engine.store)
    (held : s'.held = s.held.insert id { t with
      reads := t.reads.record k { readTs := t.beginTs, live := found.isSome } }) :
    Acts s s' (.read id k) (.found found)
  | put {op : Op} {id : TxnId} {k : RecordKey} {p : Option Payload} {t : Txn}
    (put : op.put? = some (id, k, p)) (active : s.Active id t) (engine : s'.engine = s.engine)
    (held : s'.held = s.held.insert id { t with writes := t.writes.put k p }) : Acts s s' op .done
  /-- A read or a commit that fails aborts its transaction. -/
  | refused {op : Op} {e : TxnError} {id : TxnId} {t : Txn} (tells : Event.tells ⟨op, .failed e⟩ = true)
    (active : s.Active id t)
    (clock : s'.engine.clock = s.engine.clock ∨ s.engine.clock.tick? = some s'.engine.clock)
    (engine : s'.engine = { s.engine with
      store := s'.engine.store
      clock := s'.engine.clock
      registry := s.engine.registry.erase t.id
      statistics := { (s.engine.countRefusal e).statistics with
        aborted := s.engine.statistics.aborted + 1 } })
    (store : s.engine.store.Unmoved s'.engine.store)
    (held : s'.held = s.held.insert id t.aborted) : Acts s s' op (.failed e)
  | aborted {id : TxnId} {t : Txn} (active : s.Active id t)
    (engine : s'.engine = { s.engine with
      registry := s.engine.registry.erase t.id
      statistics := { s.engine.statistics with aborted := s.engine.statistics.aborted + 1 } })
    (held : s'.held = s.held.insert id t.aborted) : Acts s s' (.abort id) .done
  | dropped {id : TxnId} {t : Txn} (active : s.Active id t)
    (engine : s'.engine = { s.engine with
      registry := s.engine.registry.erase t.id
      statistics := { s.engine.statistics with aborted := s.engine.statistics.aborted + 1 } })
    (held : s'.held = s.held.erase id) : Acts s s' (.drop id) (.dropped true)
  /-- A handle that has ended is let go of. -/
  | released {id : TxnId} {t : Txn} (get : s.held.get? id = some t) (status : t.status ≠ .active)
    (engine : s'.engine = s.engine) (held : s'.held = s.held.erase id) :
    Acts s s' (.drop id) (.dropped true)
  /-- A commit without writes. -/
  | settled {id : TxnId} {t : Txn} (active : s.Active id t) (writes : t.writes.isEmpty = true)
    (engine : s'.engine = { s.engine with
      store := s'.engine.store
      registry := s.engine.registry.erase t.id
      statistics := { s.engine.statistics with
        readOnlyCommitted := s.engine.statistics.readOnlyCommitted + 1 } })
    (store : s.engine.store.Unmoved s'.engine.store)
    (held : s'.held = s.held.insert id { t with
      status := .committed, commitTs := some t.beginTs }) :
    Acts s s' (.commit id) (.committed t.beginTs)
  /-- A commit with writes. -/
  | wrote {id : TxnId} {t : Txn} {ws : WriteSet} (active : s.Active id t)
    (writes : t.writes.isEmpty = false) (tick : s.engine.clock.tick? = some s'.engine.clock)
    (keys : ws.keys = t.writes.keys) (numbered : ∀ k w, ws.get? k = some w → w.number.isSome = true)
    (engine : s'.engine = { s.engine with
      store := s'.engine.store
      clock := s'.engine.clock
      registry := s.engine.registry.erase t.id
      statistics := { s.engine.statistics with committed := s.engine.statistics.committed + 1 }
      commitsSince := s'.engine.commitsSince })
    (maxTs : s'.engine.store.maxTs = max s.engine.store.maxTs s'.engine.clock.last)
    (held : s'.held = s.held.insert id { t with
      status := .committed, commitTs := some s'.engine.clock.last, writes := ws }) :
    Acts s s' (.commit id) (.committed s'.engine.clock.last)

variable {s s' : Session} {op : Op} {id : TxnId} {t : Txn}

theorem eq_of_insert (hget : s.held.get? id = some t) :
    { engine := s.engine, held := s.held.insert id t } = s := by
  rw [OrderedMap.insert_of_get? _ hget]

theorem acts_begin (s : Session) : s.Acts (s.step .begin).2 .begin (s.step .begin).1 := by
  rw [step, Engine.begin]
  cases htick : s.engine.clock.tick? with
  | none => exact .spent ((Clock.tick?_eq_none_iff _).1 htick) rfl rfl
  | some clock => exact .began rfl htick rfl rfl

theorem acts_issue (s : Session) : s.Acts (s.step .issue).2 .issue (s.step .issue).1 := by
  rw [step, onEngine, Engine.issue]
  cases htick : s.engine.clock.tick? with
  | none => exact .idle rfl rfl
  | some clock => exact .issued htick rfl rfl

theorem acts_tend (s : Session) :
    s.Acts (s.step .collect).2 .collect (s.step .collect).1 ∧
      s.Acts (s.step .flush).2 .flush (s.step .flush).1 := by
  refine ⟨.tended ?_ rfl ?_ (fun h => absurd rfl h) rfl, .tended ?_ rfl ?_ (fun _ => ?_) rfl⟩
  · rw [step, onEngine, Engine.collect, Engine.onStore]
    cases (s.engine.store.prune s.engine.lowWatermark).1 <;> rfl
  · exact Store.maxTs_prune _ _
  · rw [step, onEngine, Engine.flush, Engine.onStore]
    cases s.engine.store.flush.1 <;> rfl
  · exact (Store.unmoved_flush _).maxTs_eq
  · exact (Store.unmoved_flush _).tree_eq

theorem acts_read (s : Session) (id : TxnId) (k : RecordKey) :
    s.Acts (s.step (.read id k)).2 (.read id k) (s.step (.read id k)).1 := by
  cases hget : s.held.get? id with
  | none =>
    rw [step, onTxn, hget]
    exact .idle rfl rfl
  | some t =>
    by_cases hactive : t.status = .active
    · have hread := s.engine.store.unmoved_reading (Probe.visible? k t.beginTs)
      rw [step, onTxn, hget]
      simp only [Engine.read, dif_pos hactive]
      cases hw : t.writes.get? k with
      | some w => exact .idle rfl (eq_of_insert hget)
      | none =>
        simp only [Store.visible?]
        rcases hr : s.engine.store.reading (Probe.visible? k t.beginTs) with ⟨_ | found, st⟩
        all_goals rw [hr] at hread
        · exact .refused rfl ⟨hget, hactive⟩ (Or.inl rfl) rfl hread rfl
        · exact .seen ⟨hget, hactive⟩ rfl hread rfl
    · rw [step_read_of_not_active hget hactive]
      exact .idle rfl (eq_of_insert hget)

theorem acts_put {k : RecordKey} {p : Option Payload} (action : Action)
    (hop : op.put? = some (id, k, p))
    (hstep : s.step op = s.onTxn id (fun () => .done) fun g t =>
      ((t.put action k p).1, g, (t.put action k p).2)) :
    s.Acts (s.step op).2 op (s.step op).1 := by
  have silent (e : Reply) (he : e = .notHeld ∨ ∃ i u a, e = .failed (.wrongStage i u a)) :
      Event.tells ⟨op, e⟩ = false := by
    cases op <;> cases hop <;> rcases he with rfl | ⟨i, u, a, rfl⟩ <;> rfl
  rw [hstep, onTxn]
  cases hget : s.held.get? id with
  | none => exact .idle (silent _ (Or.inl rfl)) rfl
  | some t =>
    by_cases hactive : t.status = .active
    · simp only [put_of_active action k p hactive]
      exact .put hop ⟨hget, hactive⟩ rfl rfl
    · simp only [put_of_not_active action k p hactive]
      exact .idle (silent _ (Or.inr ⟨_, _, _, rfl⟩)) (eq_of_insert hget)

theorem acts_abort (s : Session) (id : TxnId) :
    s.Acts (s.step (.abort id)).2 (.abort id) (s.step (.abort id)).1 := by
  rw [step, onTxn]
  cases hget : s.held.get? id with
  | none => exact .idle rfl rfl
  | some t =>
    simp only [Engine.abort]
    by_cases hactive : t.status = .active
    · rw [dif_pos hactive]
      exact .aborted ⟨hget, hactive⟩ rfl rfl
    · rw [dif_neg hactive]
      split_ifs
      · exact .idle rfl (eq_of_insert hget)
      · exact .idle rfl (eq_of_insert hget)

theorem acts_drop (s : Session) (id : TxnId) :
    s.Acts (s.step (.drop id)).2 (.drop id) (s.step (.drop id)).1 := by
  rw [step]
  cases hget : s.held.get? id with
  | none => exact .idle rfl rfl
  | some t =>
    simp only [Engine.drop]
    by_cases hactive : t.status = .active
    · rw [dif_pos hactive]
      exact .dropped ⟨hget, hactive⟩ rfl rfl
    · rw [dif_neg hactive]
      exact .released hget hactive rfl rfl

theorem acts_commit (s : Session) (id : TxnId) :
    s.Acts (s.step (.commit id)).2 (.commit id) (s.step (.commit id)).1 := by
  cases hget : s.held.get? id with
  | none =>
    rw [step, onTxn, hget]
    exact .idle rfl rfl
  | some t =>
    by_cases hactive : t.status = .active
    · have active : s.Active id t := ⟨hget, hactive⟩
      obtain ⟨r, g', t', heq, hcloses⟩ := s.engine.exists_closes hactive
      rw [step, onTxn, hget]
      simp only [heq]
      cases hcloses with
      | refused tells clock engine store => exact .refused (tells id) active clock engine store rfl
      | readOnly writes engine store => exact .settled active writes engine store rfl
      | wrote writes tick keys numbered engine maxTs =>
        exact .wrote active writes tick keys numbered engine maxTs rfl
    · rw [step_commit_of_not_active hget hactive]
      exact .idle rfl (eq_of_insert hget)

/-- Every operation is one of these. -/
theorem acts_step (s : Session) (op : Op) : s.Acts (s.step op).2 op (s.step op).1 := by
  cases op with
  | begin => exact acts_begin s
  | read id k => exact acts_read s id k
  | write id k p => exact acts_put .write rfl rfl
  | delete id k => exact acts_put .delete rfl rfl
  | commit id => exact acts_commit s id
  | abort id => exact acts_abort s id
  | drop id => exact acts_drop s id
  | collect => exact (acts_tend s).1
  | issue => exact acts_issue s
  | flush => exact (acts_tend s).2

/-! ## What operations leave alone -/

variable {r : Reply}

/-- A handle after an operation is as it was, or one move further, or new. -/
theorem Acts.held_cases (hs : s.Acts s' op r) {i : TxnId} {u : Txn}
    (hu : s'.held.get? i = some u) :
    s.held.get? i = some u ∨ (∃ t, s.Active i t ∧ t.Moved i op r u) ∨
      ∃ clock, i.number = s.engine.lastId + 1 ∧ s.engine.clock.tick? = some clock ∧
        op = .begin ∧ r = .began i clock.last ∧ u = { id := i, beginTs := clock.last } := by
  have erased {id : TxnId} (held : s'.held = s.held.erase id) : s.held.get? i = some u := by
    rw [held, OrderedMap.get?_erase] at hu
    split_ifs at hu
    exact hu
  have moved {id : TxnId} {t v : Txn} (active : s.Active id t) (held : s'.held = s.held.insert id v)
      (h : t.Moved id op r v) : s.held.get? i = some u ∨ ∃ t, s.Active i t ∧ t.Moved i op r u := by
    rw [held, OrderedMap.get?_insert] at hu
    split_ifs at hu with hi
    · cases hu
      subst hi
      exact Or.inr ⟨t, active, h⟩
    · exact Or.inl hu
  cases hs with
  | idle _ hsame => exact Or.inl (hsame ▸ hu)
  | tended _ _ _ _ held => exact Or.inl (held ▸ hu)
  | spent _ _ held => exact Or.inl (held ▸ hu)
  | issued _ _ held => exact Or.inl (held ▸ hu)
  | began name tick engine held =>
    rw [held, OrderedMap.get?_insert] at hu
    split_ifs at hu with hi
    · cases hu
      subst hi
      exact Or.inr (Or.inr ⟨_, name, tick, rfl, rfl, rfl⟩)
    · exact Or.inl hu
  | seen active _ _ held => exact (moved active held .seen).imp_right Or.inl
  | put put active _ held => exact (moved active held (.put put)).imp_right Or.inl
  | refused _ active _ _ _ held =>
    refine (moved active held ?_).imp_right Or.inl
    cases op with
    | commit => exact .judged (.aborted (Engine.active_mayBecome_validating active.2))
    | begin | read | write | delete | abort | drop | collect | issue | flush =>
      exact .aborted (by simp) (Engine.active_mayBecome_aborted active.2)
  | aborted active _ held =>
    have may := Engine.active_mayBecome_aborted active.2
    exact (moved active held (.aborted (by simp) may)).imp_right Or.inl
  | dropped _ _ held => exact Or.inl (erased held)
  | released _ _ _ held => exact Or.inl (erased held)
  | settled active _ _ _ held =>
    have may := Engine.active_mayBecome_validating active.2
    exact (moved active held (.judged (.committed may))).imp_right Or.inl
  | wrote active _ _ _ _ _ _ held =>
    have may := Engine.active_mayBecome_validating active.2
    exact (moved active held (.judged (.committed may))).imp_right Or.inl

theorem Acts.active_cases (hs : s.Acts s' op r) {i : TxnId} {u : Txn} (hu : s'.Active i u) :
    s.Active i u ∨ (∃ ts, u = { id := i, beginTs := ts }) ∨
      ∃ t, s.Active i t ∧
        ((∃ k live, op = .read i k ∧
            u = { t with reads := t.reads.record k { readTs := t.beginTs, live } }) ∨
          ∃ k p, op.put? = some (i, k, p) ∧ u = { t with writes := t.writes.put k p }) := by
  obtain ⟨hget, hactive⟩ := hu
  rcases hs.held_cases hget with hold | ⟨t, active, moved⟩ | ⟨clock, -, -, -, -, rfl⟩
  · exact Or.inl ⟨hold, hactive⟩
  · refine Or.inr (Or.inr ⟨t, active, ?_⟩)
    cases moved with
    | seen => exact Or.inl ⟨_, _, rfl, rfl⟩
    | put put => exact Or.inr ⟨_, _, put, rfl⟩
    | aborted => cases hactive
    | judged judged => cases judged <;> cases hactive
  · exact Or.inr (Or.inl ⟨_, rfl⟩)

theorem Acts.tree_eq (hs : s.Acts s' op r) (hcollect : op ≠ .collect)
    (hcommit : ∀ id t, op = .commit id → ¬ s.Active id t) :
    s'.engine.store.tree = s.engine.store.tree := by
  cases hs with
  | idle _ hsame => rw [hsame]
  | tended _ _ _ tree => exact tree hcollect
  | spent _ engine => rw [engine]
  | began _ _ engine => rw [engine]
  | issued _ engine => rw [engine]
  | seen _ _ store => exact store.tree_eq
  | put _ _ engine => rw [engine]
  | refused _ _ _ _ store => exact store.tree_eq
  | aborted _ engine => rw [engine]
  | dropped _ engine => rw [engine]
  | released _ _ engine => rw [engine]
  | settled _ _ _ store => exact store.tree_eq
  | wrote active => exact absurd active (hcommit _ _ rfl)

theorem Acts.collectEvery_eq (hs : s.Acts s' op r) :
    s'.engine.collectEvery = s.engine.collectEvery := by
  cases hs with
  | idle _ hsame => rw [hsame]
  | tended _ engine => rw [engine]
  | spent _ engine => rw [engine]
  | began _ _ engine => rw [engine]
  | issued _ engine => rw [engine]
  | seen _ engine => rw [engine]
  | put _ _ engine => rw [engine]
  | refused _ _ _ engine => rw [engine]
  | aborted _ engine => rw [engine]
  | dropped _ engine => rw [engine]
  | released _ _ engine => rw [engine]
  | settled _ _ engine => rw [engine]
  | wrote _ _ _ _ _ engine => rw [engine]

end Session

end Mvcc
