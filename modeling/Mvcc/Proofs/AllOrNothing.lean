import Mvcc.Proofs.Annals
import Mvcc.Proofs.ChainInvariant
import Mvcc.Proofs.Chronicle
import Mvcc.Proofs.Steps

/-!
# All or nothing

A commit that fails leaves the tree as it was and its transaction aborted, whichever call failed. A
commit that takes place has installed everything, and what is stored is what was committed and
nothing else, less closed versions that were collected.

* `Session.held_step`: handles that have ended stay as they are.
* `Trace.Settled`: a handle of a transaction that committed says so, with `Settled.next`.
* `Engine.AllOrNothing`, `Fresh.all_or_nothing`: the result for every run of an engine without
  versions.
-/

namespace Mvcc

open Session

/-! ## Handles -/

namespace Session

variable {s : Session} {op : Op} {i : TxnId} {u : Txn}

theorem held_step (hu : (s.step op).2.held.get? i = some u) :
    s.held.get? i = some u ∨ (∃ t, s.Active i t) ∨
      op = .begin ∧ (s.step op).1 = .began i u.beginTs := by
  rcases (acts_step s op).held_cases hu with hold | ⟨t, active, -⟩ | ⟨clock, -, -, hop, hreply, rfl⟩
  · exact Or.inl hold
  · exact Or.inr (Or.inl ⟨t, active⟩)
  · exact Or.inr (Or.inr ⟨hop, hreply⟩)

theorem active_of_committed {id : TxnId} {ts : Timestamp}
    (h : (s.step (.commit id)).1 = .committed ts) : ∃ t, s.Active id t := by
  cases hget : s.held.get? id with
  | none =>
    rw [step, onTxn, hget] at h
    cases h
  | some t =>
    refine ⟨t, hget, ?_⟩
    by_contra hactive
    rw [step_commit_of_not_active hget hactive] at h
    cases h

end Session

theorem Event.exists_of_commit? {op : Op} {r : Reply} {past : Trace} {c : Commit}
    (h : Event.commit? ⟨op, r⟩ past = some c) :
    ∃ id ts, op = .commit id ∧ r = .committed ts ∧
      c = { id, beginTs := (past.beginTs? id).getD 0, ts, deeds := past.deeds id } := by
  cases op <;> try cases h
  cases r <;> cases h
  exact ⟨_, _, rfl, rfl, rfl⟩

namespace Trace

variable {tr : Trace} {s s' : Session} {a a' : Chains} {op : Op} {r : Reply}

/-- A handle of a transaction that committed says so and when, and its name was given. -/
structure Settled (tr : Trace) (s : Session) : Prop where
  began : ∀ c ∈ tr.commits, tr.beginTs? c.id ≠ none
  held : ∀ c ∈ tr.commits, ∀ t, s.held.get? c.id = some t →
    t.status = .committed ∧ t.commitTs = some c.ts

theorem settled_nil (s : Session) : Settled [] s where
  began _ hc := by cases hc
  held _ hc := by cases hc

theorem Records.unused_of_began (h : tr.Records s) {i : TxnId} {ts : Timestamp}
    (hm : s.Moves a s' .begin (.began i ts) a') : tr.beginTs? i = none := by
  cases hm with
  | idle silent => cases (if_pos rfl).symm.trans (silent.begin? i)
  | ended silent => cases (if_pos rfl).symm.trans (silent.begin? i)
  | began name tick => exact ((h.unused name tick).2.2 i (UInt64.le_refl _)).1

theorem Settled.next_of_old (h : tr.Settled s) (hr : tr.Records s)
    (hm : s.Moves a (s.step op).2 op (s.step op).1 a') {c : Commit} (hc : c ∈ tr.commits) :
    (tr ++ [Event.mk op (s.step op).1]).beginTs? c.id ≠ none ∧
      ∀ t, (s.step op).2.held.get? c.id = some t → t.status = .committed ∧ t.commitTs = some c.ts := by
  have hbegan := h.began c hc
  refine ⟨?_, fun u hu => ?_⟩
  · rw [beginTs?_concat, Ne, Option.or_eq_none_iff]
    exact fun hnone => hbegan hnone.1
  · rcases held_step hu with hget | ⟨t, ht⟩ | ⟨rfl, hreply⟩
    · exact h.held c hc u hget
    · have hstatus := (h.held c hc t ht.1).1
      rw [ht.2] at hstatus
      cases hstatus
    · rw [hreply] at hm
      exact absurd (hr.unused_of_began hm) hbegan

theorem Settled.next (h : tr.Settled s) (hs : s.Stands a) (hr : tr.Records s)
    (hm : s.Moves a (s.step op).2 op (s.step op).1 a') :
    (tr ++ [Event.mk op (s.step op).1]).Settled (s.step op).2 := by
  have hall : ∀ c ∈ (tr ++ [Event.mk op (s.step op).1]).commits,
      (tr ++ [Event.mk op (s.step op).1]).beginTs? c.id ≠ none ∧
        ∀ t, (s.step op).2.held.get? c.id = some t →
          t.status = .committed ∧ t.commitTs = some c.ts := by
    intro c hc
    rw [commits_concat, List.mem_append, Option.mem_toList] at hc
    rcases hc with hc | hc
    · exact h.next_of_old hr hm hc
    · obtain ⟨id, ts, rfl, hreply, rfl⟩ := Event.exists_of_commit? hc
      obtain ⟨t, ht⟩ := active_of_committed hreply
      obtain ⟨r, g', heq, -⟩ := exists_step_commit hs ht
      refine ⟨?_, fun u hu => ?_⟩
      · rw [beginTs?_concat, hr.began id t ht]
        exact Option.some_ne_none _
      · rw [heq] at hreply hu
        have hu' : (s.held.insert id (t.answered a r)).get? id = some u := hu
        rw [OrderedMap.get?_insert_self] at hu'
        cases r with
        | error e => cases hreply
        | ok ts' =>
          cases hreply
          cases hu'
          exact ⟨rfl, rfl⟩
  exact ⟨fun c hc => (hall c hc).1, fun c hc => (hall c hc).2⟩

theorem Ordered.eq_of_ts (h : tr.Ordered s) {d d' : Commit} {k : RecordKey} (hd : d ∈ tr.commits)
    (hd' : d' ∈ tr.commits) (hk : d.left? k ≠ none) (hk' : d'.left? k ≠ none) (hts : d'.ts = d.ts) :
    d' = d := by
  have hplace : ∀ e : Commit, e.left? k ≠ none → e.place = e.ts := fun e he =>
    if_pos ((Commit.wrote_iff e).2 ⟨k, he⟩)
  have hnodup : (tr.commits.map (·.place)).Nodup := List.pairwise_map.2 h.places
  refine List.inj_on_of_nodup_map hnodup hd' hd ?_
  rw [hplace d hk, hplace d' hk', hts]

theorem Annals.exists_origin (h : tr.Annals (fun _ => []) s a) (ho : tr.Ordered s) {k : RecordKey}
    {v : Version} (hv : v ∈ a k) :
    ∃ d ∈ tr.commits, d.left? k = some v.payload ∧ d.ts = v.beginTs ∧
      ∀ d' ∈ tr.commits, d'.left? k ≠ none → d'.ts = v.beginTs → d' = d := by
  obtain ⟨n, hholds⟩ := h.exists_holds k
  have hmem : v.mark ∈ (tr.writers k).drop n := hholds.marks ▸ List.mem_map_of_mem hv
  obtain ⟨d, hd, hleft, hts⟩ := (mem_writers tr).1 (List.mem_of_mem_drop hmem)
  refine ⟨d, hd, hleft, hts, fun d' hd' hleft' hts' => ?_⟩
  -- a timestamp is given to one commit with writes only
  exact ho.eq_of_ts hd hd' (by simp [hleft]) hleft' (hts'.trans hts.symm)

/-- What a commit has installed is there until something is committed to the key again. -/
theorem Annals.latest_of_commit {id : TxnId} {t : Txn} {ts : Timestamp} {k : RecordKey} {w : Write}
    {tr' : Trace} {s' : Session} (h : tr.Annals (fun _ => []) s a) (active : s.Active id t)
    (hw : t.writes.get? k = some w) (h' : tr'.Annals (fun _ => []) s' a')
    (same : tr'.writers k = (tr ++ [Event.mk (.commit id) (.committed ts)]).writers k) :
    (a' k).latest? = some ((a.draft k w).version k ts) := by
  rw [h.records.writers_commit active, hw] at same
  rw [h'.latest_eq k, List.nil_append, same, Option.map_some, Option.toList_some,
    List.getLast?_concat, List.length_append, Option.map_some]
  have hnumber := h.toNat_draft_number k w
  rw [List.nil_append] at hnumber
  rw [List.length_singleton, Nat.add_sub_cancel, ← hnumber, UInt64.ofNat_toNat]
  rfl

end Trace

namespace Engine

/-- How commits end after a run, and what is stored then. -/
structure AllOrNothing (g : Engine) (ops : List Op) : Prop where
  refused : ∀ id t e, (g.after ops).Active id t →
    ((g.after ops).step (.commit id)).1 = .failed e →
      ((g.after ops).step (.commit id)).2.engine.store.tree = (g.after ops).engine.store.tree ∧
        ∃ u, ((g.after ops).step (.commit id)).2.held.get? id = some u ∧ u.status = .aborted
  ended : ∀ id t, (g.after ops).held.get? id = some t → t.status ≠ .active →
    (g.after ops).step (.commit id) =
      (.failed (.wrongStage t.id t.status .commit), g.after ops)
  installed : ∀ id t ts, (g.after ops).Active id t →
    ((g.after ops).step (.commit id)).1 = .committed ts →
      ∀ k w, t.writes.get? k = some w → ∃ n u,
        ((g.after ops).step (.commit id)).2.held.get? id = some u ∧
          u.writes.get? k = some { payload := w.payload, number := some n } ∧
          ∀ ops', (∀ op ∈ ops', op.Fits) →
            (g.trace (ops ++ .commit id :: ops')).writers k =
              (g.trace (ops ++ [.commit id])).writers k →
            (({ medium := Medium.ofTree (g.after (ops ++ .commit id :: ops')).engine.store.tree } :
                Store).latest? k).1 =
              .ok (some { key := k, number := n, payload := w.payload, beginTs := ts })
  stored : ∃ a, (g.after ops).engine.store.tree.Encodes a ∧ ∀ k,
    (∃ n, (a k).Holds ((g.trace ops).writers k) n ∧
      ((g.trace ops).Uncollected g.collectEvery → n = 0)) ∧
    ∀ v ∈ a k, ∃ d ∈ (g.trace ops).commits, d.left? k = some v.payload ∧ d.ts = v.beginTs ∧
      ∀ d' ∈ (g.trace ops).commits, d'.left? k ≠ none → d'.ts = v.beginTs → d' = d
  settled : (g.trace ops).Settled (g.after ops)

variable {g : Engine}

theorem trace_concat (g : Engine) (ops : List Op) (op : Op) :
    g.trace (ops ++ [op]) = g.trace ops ++ [⟨op, ((g.after ops).step op).1⟩] :=
  g.trace_append ops [op]

theorem after_concat (g : Engine) (ops : List Op) (op : Op) :
    g.after (ops ++ [op]) = ((g.after ops).step op).2 :=
  g.after_append ops [op]

theorem Fresh.annals (h : g.Fresh) (ops : List Op) (hops : ∀ op ∈ ops, op.Fits) :
    ∃ a, (g.trace ops).Annals (fun _ => []) (g.after ops) a := by
  have hencodes : g.store.tree.Encodes fun _ => [] := h.tree_eq ▸ Tree.encodes_empty
  have hnil : Trace.Annals (fun _ => []) [] g.session fun _ => [] :=
    Trace.annals_nil hencodes Chains.sound_empty h.lastId_eq (fun _ => Chain.keeps_nil)
      (fun _ => rfl) (fun _ => List.Pairwise.nil) (by simp)
  obtain ⟨a, ha, -⟩ := hnil.run ops hops
  exact ⟨a, ha⟩

theorem Fresh.settled (h : g.Fresh) (ops : List Op) (hops : ∀ op ∈ ops, op.Fits) :
    (g.trace ops).Settled (g.after ops) := by
  induction ops using List.reverseRecOn with
  | nil => exact Trace.settled_nil _
  | append_singleton ops op ih =>
    have hops' : ∀ op' ∈ ops, op'.Fits := fun op' hop' => hops op' (by simp [hop'])
    obtain ⟨a, ha⟩ := h.annals ops hops'
    obtain ⟨a', hm⟩ := exists_moves ha.stands (hops op (by simp))
    rw [trace_concat, after_concat]
    exact (ih hops').next ha.stands ha.records hm

theorem Fresh.rooted (h : g.Fresh) (ops : List Op) (hops : ∀ op ∈ ops, op.Fits) {a : Chains}
    (ha : (g.trace ops).Annals (fun _ => []) (g.after ops) a)
    (hun : (g.trace ops).Uncollected g.collectEvery) : a.Rooted := by
  have hgrows : Trace.Grows (fun _ => []) [] g.session fun _ => [] := by
    refine ⟨fun k hk => ?_, fun hroot _ => ⟨hroot, h.commitsSince_eq⟩⟩
    rcases hk with hne | ⟨c, hc, -⟩
    · exact absurd rfl hne
    · cases hc
  obtain ⟨a', hgrows, hstands, hevery⟩ :=
    hgrows.run h.chronicle_nil.stands h.chronicle_nil.records ops hops
  obtain rfl := ha.stands.encodes.unique hstands.encodes
  refine (hgrows.rooted (fun _ v hv => by cases hv) ?_).1
  rw [hevery]
  exact hun

/-- However calls fail, a commit does all that it should or nothing, and what is stored is what was
committed. -/
theorem Fresh.all_or_nothing {g : Engine} (h : g.Fresh) (ops : List Op)
    (hops : ∀ op ∈ ops, op.Fits) : g.AllOrNothing ops := by
  obtain ⟨a, ha⟩ := h.annals ops hops
  refine ⟨fun id t e active hfailed => ?_, fun id t hget hactive => ?_,
    fun id t ts active hcommitted k w hw => ?_, ⟨a, ha.stands.encodes, fun k => ?_⟩,
    h.settled ops hops⟩
  · obtain ⟨r, g', heq, -, hr⟩ := exists_step_commit ha.stands active
    rw [heq] at hfailed ⊢
    cases hr with
    | refused reason kept count =>
      exact ⟨kept.tree_eq, _, OrderedMap.get?_insert_self _ _ _, rfl⟩
    | readOnly => cases hfailed
    | wrote => cases hfailed
  · rw [step_commit_of_not_active hget hactive, OrderedMap.insert_of_get? _ hget]
  · obtain ⟨u, hu, hnumber⟩ := exists_numbered ha.stands active hcommitted hw
    refine ⟨(a.draft k w).number, u, hu, hnumber, fun ops' hops' hsame => ?_⟩
    have hfits : ∀ op ∈ ops ++ .commit id :: ops', op.Fits := by
      intro op hop
      rcases List.mem_append.1 hop with hop | hop
      · exact hops op hop
      · rcases List.mem_cons.1 hop with rfl | hop
        · trivial
        · exact hops' op hop
    obtain ⟨a', ha'⟩ := h.annals _ hfits
    rw [trace_concat, hcommitted] at hsame
    have hk : k.Fits :=
      ((ha.stands.fits id t active).writes (k, w) ((OrderedMap.mem_toList_iff _ _ _).2 hw)).1
    rw [Store.latest?, Store.reading_ofTree (ha'.stands.encodes.answers_latest? hk),
      ha.latest_of_commit active hw ha' hsame]
    rfl
  · obtain ⟨b, hb⟩ := h.chronicle ops hops
    obtain ⟨n, hholds⟩ := ha.exists_holds k
    refine ⟨⟨n, hholds, fun hun => ?_⟩, fun v hv => ha.exists_origin hb.ordered hv⟩
    exact hholds.eq_zero (h.rooted ops hops ha hun k)

/-- An engine on a medium that makes one batch of changes and fails from then on. -/
def faltering : Engine :=
  let fault : Medium.Fault := { call := .applyBatch, skip := 1, error := .medium .io "injected" }
  ofStore { medium := (Medium.ofTree ∅).arm fault }

/-- The third transaction writes what the first one wrote. -/
def rewrite : List Op := Op.overlap ++ [.write ⟨3⟩ ⟨"t", .int 1⟩ [8]]

theorem fits_rewrite : ∀ op ∈ rewrite, op.Fits := by
  rw [rewrite, List.forall_mem_append]
  refine ⟨Op.fits_overlap, ?_⟩
  simp [Op.Fits, Op.fits_key, UInt64.size]

theorem all_or_nothing_faltering :
    faltering.Fresh ∧ (∀ op ∈ rewrite, op.Fits) ∧ faltering.AllOrNothing rewrite ∧
      ((faltering.after rewrite).step (.commit ⟨3⟩)).1 =
        .failed (.storage (.medium .io "injected")) ∧
      (faltering.trace rewrite).writers ⟨"t", .int 1⟩ = [(3, some [7])] := by
  have fresh : faltering.Fresh := fresh_ofStore rfl
  exact ⟨fresh, fits_rewrite, fresh.all_or_nothing rewrite fits_rewrite, by decide +kernel,
    by decide +kernel⟩

/-- A commit that is asked for once more fails, and the transaction stays committed. -/
theorem committed_of_commit_again :
    ¬ ∀ (ops : List Op) (id : TxnId) (e : TxnError), (∀ op ∈ ops, op.Fits) →
      ((inMemory.after ops).step (.commit id)).1 = .failed e →
        ∃ u, ((inMemory.after ops).step (.commit id)).2.held.get? id = some u ∧
          u.status = .aborted := by
  intro h
  obtain ⟨u, hu, hstatus⟩ := h [.begin, .commit ⟨1⟩] ⟨1⟩ (.wrongStage ⟨1⟩ .committed .commit)
    (by simp [Op.Fits]) (by decide +kernel)
  have hheld : (((inMemory.after [.begin, .commit ⟨1⟩]).step (.commit ⟨1⟩)).2.held.get? ⟨1⟩).map
      (·.status) = some .committed := by decide +kernel
  rw [hu, Option.map_some, hstatus] at hheld
  cases hheld

end Engine

end Mvcc
