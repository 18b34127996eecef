import Mvcc.Proofs.Granted
import Mvcc.Proofs.Timeline

/-!
# Engines over chains made by hand

An engine may find chains that no engine left: a client of the store may have ended a version
without another to follow it. A commit asks the open version for its number, an install asks the last
one, open or not.

* `Chains.followed_draft`, `Catalog.install_versions`: whether the writes of a transaction can be
  installed.
* `Engine.Lands`, `exists_lands`: how a commit ends over any chains.
* `Session.Lodges`: a session over any chains, with what operations make of them.
-/

namespace Mvcc

/-! ## Installing the writes of a transaction -/

theorem Chain.last_of_followed {l l' : Chain} {v : Version} (h : l.followed v = .ok l') :
    l'.getLast? = some v ∧ ∀ u ∈ l.getLast?, u.number < v.number := by
  unfold followed at h
  cases hl : l.getLast? with
  | none =>
    rw [hl] at h
    cases h
    exact ⟨rfl, by simp⟩
  | some u =>
    rw [hl] at h
    simp only at h
    have hlt (hle : ¬ v.number ≤ u.number) : ∀ x ∈ some u, x.number < v.number := by
      rintro x hx
      cases hx
      exact UInt64.not_le.1 hle
    split_ifs at h with hle
    · cases h
      exact ⟨by simp, hlt hle⟩
    · cases h
      exact ⟨List.getLast?_concat .., hlt hle⟩

/-- What is numbered after the open version may follow it, and what is numbered as a first version
may not follow one that has ended. -/
theorem Chains.followed_draft (a : Chains) (k : RecordKey) (w : Write) {ts : Timestamp}
    (hlast : ∀ u ∈ (a k).getLast?, u.number.toNat + 1 < UInt64.size ∧ u.beginTs < ts) :
    (∃ l, (a k).followed ((a.draft k w).version k ts) = .ok l) ∧
        (∀ u ∈ (a k).getLast?, u.endTs = none) ∨
      ∃ u ∈ (a k).getLast?, u.endTs ≠ none ∧
        (a k).followed ((a.draft k w).version k ts) = .error (.staleNumber k 0 u.number) := by
  unfold Chain.followed draft Chain.latest? Chain.last?
  cases hl : (a k).getLast? with
  | none => exact Or.inl ⟨⟨_, rfl⟩, by simp⟩
  | some u =>
    obtain ⟨hnumber, hbegin⟩ := hlast u hl
    rw [Option.filter_some]
    by_cases hopen : u.isOpen = true
    · have hnext : ¬ u.number + 1 ≤ u.number := by
        rw [UInt64.le_iff_toNat_le, UInt64.toNat_add]
        have hone : (1 : UInt64).toNat = 1 := rfl
        rw [hone, Nat.mod_eq_of_lt hnumber]
        omega
      refine Or.inl ⟨?_, fun v hv => ?_⟩
      · simp only [if_pos hopen, Draft.version, if_neg hnext, if_neg (UInt64.not_le.2 hbegin)]
        exact ⟨_, rfl⟩
      · cases hv
        exact u.isOpen_iff.1 hopen
    · refine Or.inr ⟨u, rfl, fun hnone => hopen (u.isOpen_iff.2 hnone), ?_⟩
      simp only [if_neg hopen, Draft.version, if_pos UInt64.zero_le]

theorem Chains.number_draft_le {a : Chains} {n : Nat} (k : RecordKey) (w : Write)
    (h : ∀ u ∈ a k, u.number.toNat < n) : (a.draft k w).number.toNat ≤ n := by
  unfold draft
  cases hl : (a k).latest? with
  | none => exact Nat.zero_le _
  | some u =>
    have hu : u ∈ a k := List.mem_of_getLast? (Option.filter_eq_some_iff.1 hl).1
    have hlt := h u hu
    show (u.number + 1).toNat ≤ n
    rw [UInt64.toNat_add]
    exact Nat.le_trans (Nat.mod_le _ _) hlt

namespace Catalog

variable {c b c' : Catalog} {vs : List Version} {ws : WriteSet} {ts : Timestamp}

theorem install_decided {seen : List RecordKey} (hnodup : (vs.map (·.key)).Nodup)
    (hseen : ∀ v ∈ vs, v.key ∉ seen) (hopen : ∀ v ∈ vs, v.endTs = none)
    (hsame : ∀ k, k ∉ seen → b.chain k = c.chain k) :
    (∃ b', b.install seen vs = .ok b') ∧ (∀ v ∈ vs, ∃ l, (c.chain v.key).followed v = .ok l) ∨
      ∃ v ∈ vs, ∃ e, (c.chain v.key).followed v = .error e ∧ b.install seen vs = .error e := by
  induction vs generalizing seen b with
  | nil => exact Or.inl ⟨⟨b, rfl⟩, by simp⟩
  | cons v rest ih =>
    obtain ⟨hnot, hrest⟩ := List.nodup_cons.1 hnodup
    rw [install, if_neg (hseen v List.mem_cons_self),
      if_pos (v.isOpen_iff.2 (hopen v List.mem_cons_self)), hsame _ (hseen v List.mem_cons_self)]
    cases hfollowed : (c.chain v.key).followed v with
    | error e => exact Or.inr ⟨v, List.mem_cons_self, e, hfollowed, rfl⟩
    | ok l =>
      have hnew : ∀ w ∈ rest, w.key ∉ v.key :: seen := by
        intro w hw hmem
        rcases List.mem_cons.1 hmem with he | hmem
        · exact hnot (List.mem_map.2 ⟨w, hw, he⟩)
        · exact hseen w (List.mem_cons_of_mem _ hw) hmem
      have hkept : ∀ k, k ∉ v.key :: seen → (b.put v.key l).chain k = c.chain k := by
        intro k hk
        rw [List.mem_cons, not_or] at hk
        rw [chain_put, if_neg hk.1, hsame k hk.2]
      rcases ih hrest hnew (fun w hw => hopen w (List.mem_cons_of_mem _ hw)) hkept with
        ⟨hok, hall⟩ | ⟨w, hw, e, he, herror⟩
      · refine Or.inl ⟨hok, fun w hw => ?_⟩
        rcases List.mem_cons.1 hw with rfl | hw
        · exact ⟨l, hfollowed⟩
        · exact hall w hw
      · exact Or.inr ⟨w, List.mem_cons_of_mem _ hw, e, he, herror⟩

theorem install_versions
    (hlast : ∀ k, ∀ u ∈ (c.chain k).getLast?, u.number.toNat + 1 < UInt64.size ∧ u.beginTs < ts) :
    (∃ c', c.install [] (Chains.versions c.chain ws ts) = .ok c') ∧
        (∀ k w, ws.get? k = some w → ∀ u ∈ (c.chain k).getLast?, u.endTs = none) ∨
      ∃ k w, ws.get? k = some w ∧ ∃ u ∈ (c.chain k).getLast?, u.endTs ≠ none ∧
        c.install [] (Chains.versions c.chain ws ts) = .error (.staleNumber k 0 u.number) := by
  have hopen : ∀ v ∈ Chains.versions c.chain ws ts, v.endTs = none := by
    intro v hv
    obtain ⟨k, w, -, rfl⟩ := Chains.mem_versions.1 hv
    rfl
  rcases install_decided (Chains.keys_versions_nodup c.chain ws ts) (by simp) hopen
    (fun k (_ : k ∉ []) => (rfl : c.chain k = c.chain k)) with ⟨hok, hall⟩ | ⟨v, hv, e, he, herror⟩
  · refine Or.inl ⟨hok, fun k w hw => ?_⟩
    obtain ⟨l, hl⟩ := hall _ (Chains.mem_versions.2 ⟨k, w, hw, rfl⟩)
    rcases Chains.followed_draft c.chain k w (hlast k) with ⟨-, hopen⟩ | ⟨u, -, -, herror⟩
    · exact hopen
    · cases hl.symm.trans herror
  · obtain ⟨k, w, hw, rfl⟩ := Chains.mem_versions.1 hv
    rcases Chains.followed_draft c.chain k w (hlast k) with ⟨⟨l, hl⟩, -⟩ | ⟨u, hu, hended, hstale⟩
    · cases he.symm.trans hl
    · cases he.symm.trans hstale
      exact Or.inr ⟨k, w, hw, u, hu, hended, herror⟩

theorem last_of_install {t : Tree} (hencodes : t.Encodes c.chain)
    (h : c.install [] (Chains.versions c.chain ws ts) = .ok c') {k : RecordKey} {w : Write}
    (hw : ws.get? k = some w) :
    (c'.chain k).getLast? = some ((Chains.draft c.chain k w).version k ts) ∧
      ∀ u ∈ c.chain k, u.number < (Chains.draft c.chain k w).number := by
  rcases (install_cases (k := k) h).2 with ⟨hnone, -⟩ | ⟨v, hv, hk, -, -, hfollowed⟩
  · exact absurd rfl (hnone _ (Chains.mem_versions.2 ⟨k, w, hw, rfl⟩))
  · obtain ⟨k', w', hw', rfl⟩ := Chains.mem_versions.1 hv
    obtain rfl : k' = k := hk
    cases hw.symm.trans hw'
    obtain ⟨hlast, hlt⟩ := Chain.last_of_followed hfollowed
    refine ⟨hlast, fun u hu => ?_⟩
    cases hl : (c.chain k').getLast? with
    | none =>
      rw [List.getLast?_eq_none_iff.1 hl] at hu
      cases hu
    | some last => exact Chain.lt_of_lt_last (hencodes.ascending k') hl (hlt last hl) u hu

end Catalog

/-! ## Commits -/

namespace Engine

variable {g g' : Engine} {t : Txn} {c : Catalog}

/-- How a commit ends over any chains, with an engine that does not collect on its own. -/
inductive Lands (g : Engine) (t : Txn) (c : Catalog) (g' : Engine) :
    Except TxnError Timestamp → Prop
  | failed {e : TxnError} (reason : Chains.conflict? c.chain t g.clock.last ≠ none ∨
    g.clock.last = Timestamp.greatest ∨ ¬ g.store.Served g'.store)
    (encodes : g'.store.tree.Encodes c.chain) : Lands g t c g' (.error e)
  /-- The writes may not be installed. -/
  | refused {e : Refusal} {clock : Clock} (tick : g.clock.tick? = some clock)
    (install : c.install [] (Chains.versions c.chain t.writes clock.last) = .error e)
    (encodes : g'.store.tree.Encodes c.chain) : Lands g t c g' (.error (.storage (.refused e)))
  | settled {ts : Timestamp} (writes : t.writes.isEmpty = true)
    (encodes : g'.store.tree.Encodes c.chain) : Lands g t c g' (.ok ts)
  | wrote {c' : Catalog} (tick : g.clock.tick? = some g'.clock)
    (install : c.install [] (Chains.versions c.chain t.writes g'.clock.last) = .ok c')
    (encodes : g'.store.tree.Encodes c'.chain) : Lands g t c g' (.ok g'.clock.last)

theorem exists_install_on {s : Store} (h : s.tree.Encodes c.chain) {vs : List Version}
    (hv : ∀ v ∈ vs, v.Fits) :
    ∃ r s', s.install vs = (r, s') ∧
      ((∃ c', c.install [] vs = .ok c' ∧ r = .ok () ∧ s'.tree.Encodes c'.chain) ∨
        s'.tree.Encodes c.chain ∧ ((∃ e, c.install [] vs = .error e ∧ r = .error (.refused e)) ∨
          (∃ e, r = .error e) ∧ ¬ s.Served s')) := by
  have hfollows := Store.follows_install h hv
  rw [Store.serve, Catalog.serve] at hfollows
  rcases hr : s.install vs with ⟨r, s'⟩
  rw [hr] at hfollows
  refine ⟨r, s', rfl, ?_⟩
  rcases hfollows.result with ⟨hreply, hencodes⟩ | ⟨⟨e, he⟩, hserved, hkept⟩
  · cases hinstall : c.install [] vs with
    | error e =>
      rw [hinstall] at hreply hencodes
      cases r with
      | error x =>
        cases hreply
        exact Or.inr ⟨hencodes, Or.inl ⟨e, rfl, rfl⟩⟩
      | ok u => cases hreply
    | ok c' =>
      rw [hinstall] at hreply hencodes
      cases r with
      | error x => cases hreply
      | ok u => exact Or.inl ⟨c', rfl, rfl, hencodes⟩
  · cases r with
    | error x => exact Or.inr ⟨hkept.encodes h, Or.inr ⟨⟨x, rfl⟩, hserved⟩⟩
    | ok u => cases he

theorem exists_attempt_on (every : g.collectEvery = none) (h : g.store.tree.Encodes c.chain)
    (ht : t.Fits) :
    ∃ r g', g.attempt t = (r, g') ∧ g.Lands t c g' (r.map (·.commitTs)) ∧
      ∀ o, r = .ok o → o.collects = false := by
  obtain ⟨r, s, heq, hkept, hr⟩ := Store.exists_reading (h.answers_judge ht g.clock.last)
  have hencodes : s.tree.Encodes c.chain := hkept.encodes h
  rw [attempt, heq]
  rcases hr with rfl | ⟨⟨e, rfl⟩, hs⟩
  swap
  · exact ⟨_, _, rfl, .failed (Or.inr (Or.inr hs)) hencodes, by simp⟩
  rw [Chains.judge]
  cases hfree : Chains.conflict? c.chain t g.clock.last with
  | some x => exact ⟨_, _, rfl, .failed (Or.inl (by simp [hfree])) hencodes, by simp⟩
  | none =>
    cases hwrites : t.writes.isEmpty with
    | true =>
      refine ⟨_, _, rfl, .settled hwrites hencodes, ?_⟩
      rintro o ⟨⟩
      rfl
    | false =>
      simp only [Bool.false_eq_true, if_false, installDrafts]
      cases htick : g.clock.tick? with
      | none =>
        have hlast := (Clock.tick?_eq_none_iff _).1 htick
        exact ⟨_, _, rfl, .failed (Or.inr (Or.inl hlast)) hencodes, by simp⟩
      | some clock =>
        have hfits : ∀ v ∈ Chains.versions c.chain t.writes clock.last, v.Fits := by
          intro v hv
          obtain ⟨k, w, hw, rfl⟩ := Chains.mem_versions.1 hv
          exact ht.writes (k, w) ((OrderedMap.mem_toList_iff _ _ _).2 hw)
        obtain ⟨r, s', hinstall, hr⟩ := exists_install_on hencodes hfits
        rw [Chains.versions] at hinstall
        simp only [hinstall]
        rcases hr with ⟨c', hc', rfl, hencodes'⟩ | ⟨hencodes', ⟨e, hc', rfl⟩ | ⟨⟨e, rfl⟩, hs⟩⟩
        · refine ⟨_, _, rfl, .wrote htick hc' hencodes', ?_⟩
          rintro o ⟨⟩
          simp [every]
        · exact ⟨_, _, rfl, .refused htick hc' hencodes', by simp⟩
        · have hnot := hkept.toCalled.not_served hs
          exact ⟨_, _, rfl, .failed (Or.inr (Or.inr hnot)) hencodes', by simp⟩

theorem exists_lands (every : g.collectEvery = none) (h : g.store.tree.Encodes c.chain)
    (ht : t.Fits) (hactive : t.status = .active) :
    ∃ r g' t', g.commit t = (r, g', t') ∧ g.Lands t c g' r := by
  obtain ⟨r, g', hattempt, hlands, hidle⟩ := exists_attempt_on (g := g.note t.id .validating)
    (t := t.moveTo .validating (active_mayBecome_validating hactive)) every h
    ⟨ht.reads, ht.writes⟩
  rw [commit, dif_pos hactive]
  simp only [hattempt]
  cases r with
  | error e =>
    obtain ⟨statistics, hcount⟩ := exists_countRefusal g' e
    simp only [hcount]
    refine ⟨_, _, _, rfl, ?_⟩
    cases hlands with
    | failed reason encodes => exact .failed reason encodes
    | refused tick install encodes => exact .refused tick install encodes
  | ok o =>
    obtain ⟨statistics, hcount⟩ := exists_countCommit g' o
    simp only [hcount, collectIfDue, hidle o rfl, Bool.false_eq_true, if_false]
    refine ⟨_, _, _, rfl, ?_⟩
    have hlands' : (g.note t.id .validating).Lands _ c g' (.ok o.commitTs) := hlands
    generalize o.commitTs = ts at hlands' ⊢
    cases hlands' with
    | settled writes encodes => exact .settled writes encodes
    | wrote tick install encodes => exact .wrote tick install encodes

end Engine

/-! ## Operations -/

def Op.isCommit : Op → Bool
  | .commit _ => true
  | _ => false

namespace Session

variable {s s' : Session} {c : Catalog} {op : Op} {r : Reply}

/-- The tree stands for a catalog, whatever its chains are like, the engine does not collect on its own,
and what active transactions have read is of their snapshots. -/
structure Lodges (s : Session) (c : Catalog) : Prop where
  encodes : s.engine.store.tree.Encodes c.chain
  collectEvery_eq : s.engine.collectEvery = none
  fits : ∀ id t, s.Active id t → t.Fits
  readTs_eq : ∀ id t, s.Active id t → ∀ k o, t.reads.get? k = some o → o.readTs = t.beginTs

theorem Lodges.exists_step_commit (h : s.Lodges c) {id : TxnId} {t : Txn} (active : s.Active id t) :
    ∃ r g' held, s.step (.commit id) = (.ofExcept .committed r, { engine := g', held }) ∧
      s.engine.Lands t c g' r := by
  obtain ⟨r, g', t', heq, hlands⟩ :=
    Engine.exists_lands h.collectEvery_eq h.encodes (h.fits id t active) active.2
  refine ⟨r, g', s.held.insert id t', ?_, hlands⟩
  rw [step, onTxn, active.1]
  simp only [heq]

theorem Lodges.exists_catalog (h : s.Lodges c) (op : Op) :
    ∃ c', (s.step op).2.engine.store.tree.Encodes c'.chain ∧
      (c' = c ∨ (∃ ts, op = .collect ∧ c' = c.prune ts) ∨
        ∃ id, op = .commit id ∧ ∃ t : Txn, c.install []
          (Chains.versions c.chain t.writes (s.step op).2.engine.clock.last) = .ok c') := by
  by_cases hcollect : op = .collect
  · subst hcollect
    obtain ⟨r, st, heq, -, hr⟩ := Engine.exists_collect h.encodes
    have hstore : (s.step .collect).2.engine.store = st := by
      rw [step, onEngine]
      simp only [heq]
    rw [hstore]
    rcases hr with ⟨-, hencodes⟩ | ⟨-, hkept⟩
    · refine ⟨c.prune s.engine.lowWatermark, ?_, Or.inr (Or.inl ⟨_, rfl, rfl⟩)⟩
      rwa [show (c.prune s.engine.lowWatermark).chain = Chains.keep c.chain _ from
        funext (c.chain_prune _)]
    · exact ⟨c, hkept.encodes h.encodes, Or.inl rfl⟩
  by_cases hcommit : ∃ id t, op = .commit id ∧ s.Active id t
  · obtain ⟨id, t, rfl, active⟩ := hcommit
    obtain ⟨r, g', held, heq, hlands⟩ := h.exists_step_commit active
    rw [heq]
    cases hlands with
    | failed _ encodes => exact ⟨c, encodes, Or.inl rfl⟩
    | refused _ _ encodes => exact ⟨c, encodes, Or.inl rfl⟩
    | settled _ encodes => exact ⟨c, encodes, Or.inl rfl⟩
    | @wrote c' tick install encodes =>
      exact ⟨c', encodes, Or.inr (Or.inr ⟨id, rfl, t, install⟩)⟩
  · have htree := (acts_step s op).tree_eq hcollect fun id t hop active =>
      hcommit ⟨id, t, hop, active⟩
    exact ⟨c, htree ▸ h.encodes, Or.inl rfl⟩

theorem Lodges.next {c' : Catalog} (h : s.Lodges c) (hop : op.Fits)
    (encodes : (s.step op).2.engine.store.tree.Encodes c'.chain) : (s.step op).2.Lodges c' := by
  have hs := acts_step s op
  refine ⟨encodes, hs.collectEvery_eq.trans h.collectEvery_eq, fun i u hu => ?_, fun i u hu => ?_⟩
  · rcases hs.active_cases hu with hu | ⟨ts, rfl⟩ | ⟨t, ht, ⟨k, live, rfl, rfl⟩ | ⟨k, p, hput, rfl⟩⟩
    · exact h.fits i u hu
    · exact ⟨by simp, by simp⟩
    · exact fits_record (h.fits i t ht) hop _
    · obtain ⟨hk, hp⟩ := fits_of_put? hop hput
      exact fits_put (h.fits i t ht) hk hp
  · rcases hs.active_cases hu with hu | ⟨ts, rfl⟩ | ⟨t, ht, ⟨k, live, rfl, rfl⟩ | ⟨k, p, hput, rfl⟩⟩
    · exact h.readTs_eq i u hu
    · intro k o ho
      cases ho
    · exact record_readTs_eq (h.readTs_eq i t ht) k live
    · exact h.readTs_eq i t ht

/-- One operation more: without a commit nothing new comes in, and a commit numbers its versions one
higher at most and dates them by the clock. -/
theorem Lodges.exists_next (h : s.Lodges c) (hop : op.Fits) :
    ∃ c', (s.step op).2.Lodges c' ∧
      (op.isCommit = false → ∀ n ts, c.Within n ts → c'.Within n ts) ∧
      ∀ n, c.Within n s.engine.clock.last →
        c'.Within (n + [op].countP Op.isCommit) (s.step op).2.engine.clock.last := by
  obtain ⟨c', hencodes, hc'⟩ := h.exists_catalog op
  have hclock := (acts_step s op).clock_le
  refine ⟨c', h.next hop hencodes, ?_⟩
  rcases hc' with rfl | ⟨low, rfl, rfl⟩ | ⟨id, rfl, t, hinstall⟩
  · exact ⟨fun _ _ _ => id, fun n hn => hn.mono (Nat.le_add_right ..) hclock⟩
  · have hserve (n : Nat) (ts : Timestamp) (hn : c.Within n ts) : (c.prune low).Within n ts :=
      @Catalog.Within.serve c (c.prune low) n ts hn (.prune low) _ rfl fun v hv => by cases hv
    exact ⟨fun _ => hserve, fun n hn => (hserve n _ hn).mono (Nat.le_add_right ..) hclock⟩
  · refine ⟨fun hno => Bool.noConfusion hno, fun n hn => ?_⟩
    refine (hn.mono (Nat.le_succ n) hclock).serve (q := .install _) (x := .done)
      (by rw [Catalog.serve, hinstall]; rfl) fun v hv => ?_
    obtain ⟨k, w, -, rfl⟩ := Chains.mem_versions.1 hv
    have hnumber := Chains.number_draft_le k w fun u hu => (hn k u hu).1
    exact ⟨Nat.lt_succ_of_le hnumber, UInt64.le_refl _⟩

theorem Lodges.exists_run (h : s.Lodges c) {n : Nat} (hn : c.Within n s.engine.clock.last)
    {ops : List Op} (fits : ∀ op ∈ ops, op.Fits) :
    ∃ c', (s.run ops).2.Lodges c' ∧
      c'.Within (n + ops.countP Op.isCommit) (s.run ops).2.engine.clock.last := by
  induction ops generalizing s c n with
  | nil => exact ⟨c, h, hn⟩
  | cons op rest ih =>
    obtain ⟨c₁, h₁, -, hnext⟩ := h.exists_next (fits op List.mem_cons_self)
    obtain ⟨c', h', hc'⟩ := ih h₁ (hnext n hn) fun op' hop' => fits op' (List.mem_cons_of_mem _ hop')
    refine ⟨c', h', ?_⟩
    rw [Nat.add_assoc, ← List.countP_append] at hc'
    exact hc'

theorem Lodges.exists_run_alone (h : s.Lodges c) {ops : List Op} (fits : ∀ op ∈ ops, op.Fits)
    (alone : ∀ op ∈ ops, op.isCommit = false) :
    ∃ c', (s.run ops).2.Lodges c' ∧ ∀ n ts, c.Within n ts → c'.Within n ts := by
  induction ops generalizing s c with
  | nil => exact ⟨c, h, fun _ _ => id⟩
  | cons op rest ih =>
    obtain ⟨c₁, h₁, hsame, -⟩ := h.exists_next (fits op List.mem_cons_self)
    obtain ⟨c', h', hc'⟩ := ih h₁ (fun op' hop' => fits op' (List.mem_cons_of_mem _ hop'))
      fun op' hop' => alone op' (List.mem_cons_of_mem _ hop')
    exact ⟨c', h', fun n ts hn => hc' n ts (hsame (alone op List.mem_cons_self) n ts hn)⟩

end Session

end Mvcc
