import Mvcc.Proofs.History

/-!
# The chain invariant

Whatever engines do to a tree, one after the other, each with a clock, failures and settings of its
own, the chains in it stay linked. Records that were committed keep a version, and the chain of a
record begins with number zero for as long as nothing is collected.

* `Trace.Uncollected`: no collection took place.
* `Trace.Grows`: what a run makes of the chains it began with, with `Grows.next`.
* `Tree.Left`: the trees that engines leave.
* `Left.chain_invariant`: the result for all of them.
-/

namespace Mvcc

open Session

/-- Every chain begins with number zero. -/
def Chains.Rooted (a : Chains) : Prop := ∀ k, ∀ v ∈ (a k).head?, v.number = 0

namespace Chains

variable {a : Chains}

theorem Rooted.commit (h : a.Rooted) (ws : WriteSet) (ts : Timestamp) :
    (a.commit ws ts).Rooted := by
  intro k v hv
  rw [commit_apply] at hv
  cases hw : ws.get? k with
  | none =>
    rw [hw] at hv
    exact h k v hv
  | some w =>
    simp only [hw] at hv
    rcases List.eq_nil_or_concat' (a k) with hnil | ⟨c, u, hcu⟩
    · rw [hnil, Chain.extend_nil] at hv
      cases hv
      show (a.draft k w).number = 0
      rw [draft, hnil]
      rfl
    · rw [hcu, Chain.extend_concat, List.head?_append] at hv
      have hroot := h k
      rw [hcu, List.head?_append] at hroot
      cases c with
      | nil =>
        cases hv
        exact hroot u rfl
      | cons x c =>
        cases hv
        exact hroot _ rfl

theorem commit_ne_nil (a : Chains) {ws : WriteSet} (ts : Timestamp) {k : RecordKey}
    (h : a k ≠ [] ∨ ws.get? k ≠ none) : a.commit ws ts k ≠ [] := by
  rw [commit_apply]
  cases hw : ws.get? k with
  | none => exact h.resolve_right fun hne => hne hw
  | some w => exact Chain.extend_ne_nil _ _

theorem Sound.keep_ne_nil (h : a.Sound) (ts : Timestamp) {k : RecordKey} (hk : a k ≠ []) :
    a.keep (fun v => !v.endedBy ts) k ≠ [] := by
  obtain ⟨n, hn, hlen, -⟩ := (h.linked k).filter_eq_drop ts
  rw [Chains.keep, hn, Ne, List.drop_eq_nil_iff]
  exact Nat.not_le.2 (hlen hk)

end Chains

namespace Trace

/-- How many transactions committed and wrote something. -/
def writeCount (tr : Trace) : Nat := (tr.commits.filter (·.wrote)).length

/-- No collection was asked for, and there were too few commits for one to come due. -/
def Uncollected (tr : Trace) (every : Option UInt64) : Prop :=
  (∀ e ∈ tr, e.op ≠ .collect) ∧ ∀ n ∈ every, tr.writeCount < n.toNat

/-- Whether a key was written by a transaction that committed. -/
def Wrote (tr : Trace) (k : RecordKey) : Prop := ∃ c ∈ tr.commits, c.left? k ≠ none

/-- What a run makes of the chains it began with. -/
structure Grows (a₀ : Chains) (tr : Trace) (s : Session) (a : Chains) : Prop where
  ne_nil : ∀ k, a₀ k ≠ [] ∨ tr.Wrote k → a k ≠ []
  rooted : a₀.Rooted → tr.Uncollected s.engine.collectEvery →
    a.Rooted ∧ s.engine.commitsSince = tr.writeCount

variable {tr : Trace} {s s' : Session} {a₀ a a' : Chains} {op : Op} {r : Reply} {e : Event}

theorem uncollected_of_concat {every : Option UInt64} (h : (tr ++ [e]).Uncollected every) :
    e.op ≠ .collect ∧ tr.Uncollected every := by
  refine ⟨h.1 e (by simp), fun e' he' => h.1 e' (List.mem_append_left _ he'), fun n hn => ?_⟩
  refine Nat.lt_of_le_of_lt ?_ (h.2 n hn)
  rw [writeCount, writeCount, commits_concat, List.filter_append, List.length_append]
  exact Nat.le_add_right _ _

theorem Grows.next_of_same (h : Grows a₀ tr s a) (commits : (tr ++ [e]).commits = tr.commits)
    (every : s'.engine.collectEvery = s.engine.collectEvery)
    (count : s'.engine.commitsSince = s.engine.commitsSince) : Grows a₀ (tr ++ [e]) s' a where
  ne_nil k hk := h.ne_nil k (by rwa [Wrote, commits] at hk)
  rooted hroot hun := by
    rw [every] at hun
    rw [count, writeCount, commits]
    exact h.rooted hroot (uncollected_of_concat hun).2

theorem Grows.next_of_settled (h : Grows a₀ tr s a) (hr : tr.Records s) {id : TxnId} {t : Txn}
    (active : s.Active id t) (writes : t.writes.isEmpty = true) {registry : Registry}
    (engine : s.engine.Idles s'.engine registry) (ts : Timestamp) :
    Grows a₀ (tr ++ [Event.mk (.commit id) (.committed ts)]) s' a where
  ne_nil k hk := by
    refine h.ne_nil k (hk.imp_right ?_)
    rw [Wrote, hr.commits_commit active]
    rintro ⟨c, hc, hleft⟩
    rcases List.mem_append.1 hc with hc | hc
    · exact ⟨c, hc, hleft⟩
    · rw [List.mem_singleton.1 hc, hr.left?_commitOf active,
        (OrderedMap.isEmpty_iff _).1 writes k] at hleft
      exact absurd rfl hleft
  rooted hroot hun := by
    rw [engine.collectEvery_eq] at hun
    have hcount : ¬ (tr.commitOf t id ts).wrote = true := by
      rw [hr.wrote_commitOf active, writes]
      decide
    rw [engine.count, writeCount, hr.commits_commit active, List.filter_append,
      List.filter_cons_of_neg hcount, List.filter_nil, List.append_nil]
    exact h.rooted hroot (uncollected_of_concat hun).2

theorem Grows.next_of_commit (h : Grows a₀ tr s a) (hs : s.Stands a) (hr : tr.Records s)
    {id : TxnId} {t : Txn} (active : s.Active id t)
    (free : a.conflict? t s.engine.clock.last = none) (writes : t.writes.isEmpty = false)
    (tick : s.engine.clock.tick? = some s'.engine.clock) {registry : Registry}
    (engine : s.engine.Carries s'.engine registry)
    (leaves : s.engine.Leaves s'.engine (a.commit t.writes s'.engine.clock.last) a') :
    Grows a₀ (tr ++ [Event.mk (.commit id) (.committed s'.engine.clock.last)]) s' a' where
  ne_nil k hk := by
    have hsound := hs.sound_commit active free tick
    have hcommit : a.commit t.writes s'.engine.clock.last k ≠ [] := by
      refine Chains.commit_ne_nil a _ ?_
      rcases hk with hk | ⟨c, hc, hleft⟩
      · exact Or.inl (h.ne_nil k (Or.inl hk))
      · rw [hr.commits_commit active] at hc
        rcases List.mem_append.1 hc with hc | hc
        · exact Or.inl (h.ne_nil k (Or.inr ⟨c, hc, hleft⟩))
        · rw [List.mem_singleton.1 hc, hr.left?_commitOf active, Ne,
            Option.map_eq_none_iff] at hleft
          exact Or.inr hleft
    cases leaves with
    | early undue count => exact hcommit
    | failed due => exact hcommit
    | collected due low_le => exact hsound.keep_ne_nil _ hcommit
  rooted hroot hun := by
    rw [engine.collectEvery_eq] at hun
    obtain ⟨hrooted, hcount⟩ := h.rooted hroot (uncollected_of_concat hun).2
    have hwrote : (tr.commitOf t id s'.engine.clock.last).wrote = true := by
      rw [hr.wrote_commitOf active, writes]
      rfl
    have hnext : writeCount (tr ++ [Event.mk (.commit id) (.committed s'.engine.clock.last)]) =
        tr.writeCount + 1 := by
      rw [writeCount, hr.commits_commit active, List.filter_append, List.filter_cons_of_pos hwrote,
        List.filter_nil, List.length_append]
      rfl
    -- the count says that nothing is due
    have hundue : ¬ s.engine.Due := by
      rintro ⟨n, hn, hle⟩
      have hlt := hun.2 n hn
      omega
    cases leaves with
    | early undue count => exact ⟨hrooted.commit _ _, by omega⟩
    | failed due => exact absurd due hundue
    | collected due low_le => exact absurd due hundue

theorem Grows.next (h : Grows a₀ tr s a) (hs : s.Stands a) (hr : tr.Records s)
    (hm : s.Moves a s' op r a') : Grows a₀ (tr ++ [Event.mk op r]) s' a' := by
  cases hm with
  | idle silent engine =>
    exact h.next_of_same (commits_of_silent tr _ (silent.commit? tr)) engine.collectEvery_eq
      engine.count
  | ended silent active engine =>
    exact h.next_of_same (commits_of_silent tr _ (silent.commit? tr)) engine.collectEvery_eq
      engine.count
  | began name tick engine =>
    exact h.next_of_same (commits_of_silent tr _ rfl) (by rw [engine]) (by rw [engine])
  | own active write engine =>
    exact h.next_of_same (commits_of_silent tr _ rfl) (by rw [engine]) (by rw [engine])
  | seen active write visible engine =>
    exact h.next_of_same (commits_of_silent tr _ rfl) engine.collectEvery_eq engine.count
  | put put active engine =>
    exact h.next_of_same (commits_of_silent tr _ (Event.commit?_done _ tr)) (by rw [engine])
      (by rw [engine])
  | settled active free writes engine => exact h.next_of_settled hr active writes engine _
  | committed active free writes tick engine leaves =>
    exact h.next_of_commit hs hr active free writes tick engine leaves
  | collected low_le engine =>
    refine ⟨fun k hk => ?_, fun hroot hun => absurd rfl (uncollected_of_concat hun).1⟩
    refine hs.sound.keep_ne_nil _ (h.ne_nil k (hk.imp_right ?_))
    rw [Wrote, commits_of_silent tr _ rfl]
    exact id

theorem Grows.run (h : Grows a₀ tr s a) (hs : s.Stands a) (hr : tr.Records s) (ops : List Op)
    (hops : ∀ op ∈ ops, op.Fits) :
    ∃ a', Grows a₀ (tr ++ s.trace ops) (s.run ops).2 a' ∧ (s.run ops).2.Stands a' ∧
      (s.run ops).2.engine.collectEvery = s.engine.collectEvery := by
  induction ops generalizing tr s a with
  | nil =>
    rw [show s.trace [] = [] from rfl, List.append_nil]
    exact ⟨a, h, hs, rfl⟩
  | cons op rest ih =>
    have hop := hops op List.mem_cons_self
    obtain ⟨a₁, hm⟩ := exists_moves hs hop
    obtain ⟨a', ha', hs', hevery⟩ := ih (h.next hs hr hm) (hm.stands hs hop) (hr.next hm)
      fun op' hop' => hops op' (List.mem_cons_of_mem _ hop')
    rw [List.append_assoc] at ha'
    exact ⟨a', ha', hs', hevery.trans hm.collectEvery_eq⟩

end Trace

/-! ## One engine after the other -/

/-- What one engine was asked and answered, and after how many commits it collects. -/
structure Chapter where
  every : Option UInt64
  trace : Trace

/-- The keys that were committed. -/
def Chapter.Wrote (past : List Chapter) (k : RecordKey) : Prop := ∃ c ∈ past, c.trace.Wrote k

/-- No engine collected anything. -/
def Chapter.Uncollected (past : List Chapter) : Prop := ∀ c ∈ past, c.trace.Uncollected c.every

namespace Tree

/-- The trees that engines leave. Each engine takes the tree that the one before left into use, with
a clock, failures and settings of its own, and is given up after any number of operations. -/
inductive Left : Tree → List Chapter → Prop
  | empty : Left ∅ []
  | run {past : List Chapter} {store : Store} (left : Left store.tree past) (clock : Clock)
    (every : Option UInt64) {ops : List Op} (fits : ∀ op ∈ ops, op.Fits) :
    Left ((Engine.withClock store clock every).after ops).engine.store.tree
      (past ++ [{
        every := (Engine.withClock store clock every).collectEvery
        trace := (Engine.withClock store clock every).trace ops }])

theorem Left.reopen {t : Tree} {past : List Chapter} (h : Left t past) (clock : Clock)
    {ops : List Op} (fits : ∀ op ∈ ops, op.Fits) :
    Left ((Engine.withClock { medium := Medium.ofTree t } clock).after ops).engine.store.tree
      (past ++ [⟨none, (Engine.withClock { medium := Medium.ofTree t } clock).trace ops⟩]) :=
  @Left.run past { medium := Medium.ofTree t } h clock none ops fits

theorem Left.exists_chains {t : Tree} {past : List Chapter} (h : Left t past) :
    ∃ a, t.Encodes a ∧ a.Sound ∧ (∀ k, Chapter.Wrote past k → a k ≠ []) ∧
      (Chapter.Uncollected past → a.Rooted) := by
  induction h with
  | empty =>
    refine ⟨fun _ => [], encodes_empty, Chains.sound_empty, ?_, fun _ => ?_⟩
    · rintro k ⟨c, hc, -⟩
      cases hc
    · intro k v hv
      cases hv
  | @run past store left clock every ops fits ih =>
    obtain ⟨a₀, hencodes, hsound, hne, hroot⟩ := ih
    have hstands : (Engine.withClock store clock every).session.Stands a₀ :=
      stands_session hencodes hsound
    have hgrows : Trace.Grows a₀ [] (Engine.withClock store clock every).session a₀ := by
      refine ⟨fun k hk => hk.resolve_right ?_, fun hroot _ => ⟨hroot, rfl⟩⟩
      rintro ⟨c, hc, -⟩
      cases hc
    obtain ⟨a, hgrows, hstands, hevery⟩ := hgrows.run hstands (Trace.records_nil _ rfl) ops fits
    refine ⟨a, hstands.encodes, hstands.sound, ?_, fun hun => ?_⟩
    · rintro k ⟨c, hc, hwrote⟩
      rcases List.mem_append.1 hc with hc | hc
      · exact hgrows.ne_nil k (Or.inl (hne k ⟨c, hc, hwrote⟩))
      · rw [List.mem_singleton.1 hc] at hwrote
        exact hgrows.ne_nil k (Or.inr hwrote)
    · have hlast := hun _ (List.mem_append_right _ (List.mem_singleton_self _))
      refine (hgrows.rooted (hroot fun c hc => hun c (List.mem_append_left _ hc)) ?_).1
      rw [hevery]
      exact hlast

/-- In every tree that engines leave, the chain of a record is linked, it is there if the record was
committed, and without collections it begins with number zero. So snapshots see at most one
version, and one from the first begin on. -/
theorem Left.chain_invariant {t : Tree} {past : List Chapter} (h : Left t past) {k : RecordKey}
    (hk : k.Fits) :
    ∃ c, (({ medium := Medium.ofTree t } : Store).chain k).1 = .ok c ∧ c.Linked ∧
      (Chapter.Wrote past k → c ≠ []) ∧
      (Chapter.Uncollected past → ∀ v ∈ c.head?, v.number = 0) ∧
      ∀ ts, (c.filter (·.visibleAt ts)).length ≤ 1 ∧
        ∀ v ∈ c.head?, v.beginTs ≤ ts → (c.filter (·.visibleAt ts)).length = 1 := by
  obtain ⟨a, hencodes, hsound, hne, hroot⟩ := h.exists_chains
  refine ⟨a k, Store.reading_ofTree (hencodes.answers_chain hk), hsound.linked k, hne k,
    fun hun => hroot hun k, fun ts => ?_⟩
  rw [(hsound.linked k).length_visible ts]
  refine ⟨by split_ifs <;> omega, fun v hv hle => if_pos ?_⟩
  rw [hv]
  exact decide_eq_true hle

/-- Two commits of one engine over an empty store, and then one of an engine whose clock was set back
and that issues timestamps of the first one again. -/
theorem chain_invariant_overlap :
    let k : RecordKey := ⟨"t", .int 1⟩
    let first : List Op :=
      [.begin, .write ⟨1⟩ k [7], .commit ⟨1⟩, .begin, .write ⟨2⟩ k [8], .commit ⟨2⟩]
    let second : List Op := [.issue, .issue, .issue, .begin, .delete ⟨1⟩ k, .commit ⟨1⟩]
    let found := ((Engine.withClock { medium := Medium.ofTree ∅ } {}).after first).engine.store.tree
    let t := ((Engine.withClock { medium := Medium.ofTree found } {}).after second).engine.store.tree
    (∀ op ∈ first, op.Fits) ∧ (∀ op ∈ second, op.Fits) ∧ k.Fits ∧
      ∃ past, Left t past ∧ Chapter.Wrote past k ∧ Chapter.Uncollected past ∧
        ∃ c, (({ medium := Medium.ofTree t } : Store).chain k).1 = .ok c ∧ c.Linked ∧
          (c.map fun v => (v.number, v.beginTs, v.endTs)) =
            [(0, 2, some 4), (1, 4, some 5), (2, 5, none)] ∧
          c ≠ [] ∧ (∀ v ∈ c.head?, v.number = 0) ∧
          (c.filter (·.visibleAt 1)).length ≤ 1 ∧ (c.filter (·.visibleAt 4)).length = 1 := by
  intro k first second found t
  have fits₁ : ∀ op ∈ first, op.Fits := by simp [first, Op.Fits, k, Op.fits_key, UInt64.size]
  have fits₂ : ∀ op ∈ second, op.Fits := by simp [second, Op.Fits, k, Op.fits_key]
  have fits : k.Fits := Op.fits_key 1
  have earlier : Left found _ := Left.empty.reopen {} fits₁
  have left : Left t _ := earlier.reopen {} fits₂
  obtain ⟨c, hchain, hlinked, hne, hroot, hvisible⟩ := left.chain_invariant fits
  have hread : (({ medium := Medium.ofTree t } : Store).chain k).1.toOption.map
      (·.map fun v => (v.number, v.beginTs, v.endTs)) =
        some [(0, 2, some 4), (1, 4, some 5), (2, 5, none)] := by decide +kernel
  rw [hchain] at hread
  have hdates := Option.some.inj hread
  obtain ⟨v, hv, hbegin⟩ : ∃ v, c.head? = some v ∧ v.beginTs = 2 := by
    obtain ⟨v, rest, rfl, hv, -⟩ := List.map_eq_cons_iff.1 hdates
    exact ⟨v, rfl, (Prod.mk.inj (Prod.mk.inj hv).2).1⟩
  refine ⟨fits₁, fits₂, fits, _, left, ?wrote, ?uncollected, c, hchain, hlinked, hdates,
    hne ?wrote, hroot ?uncollected, (hvisible 1).1, (hvisible 4).2 v hv ?begins⟩
  case wrote =>
    refine ⟨_, List.mem_append_right _ (List.mem_singleton_self _), ?_⟩
    show ∃ c ∈ Trace.commits _, c.left? _ ≠ none
    decide +kernel
  case uncollected =>
    intro c hc
    rcases List.mem_append.1 hc with hc | hc
    · rw [List.mem_singleton.1 hc]
      refine ⟨?_, fun n hn => by cases hn⟩
      decide +kernel
    · rw [List.mem_singleton.1 hc]
      refine ⟨?_, fun n hn => by cases hn⟩
      decide +kernel
  case begins =>
    rw [hbegin]
    decide

end Tree

end Mvcc
