import Mvcc.Proofs.Handmade

/-!
# Lone writers

A transaction that no other commit comes between should always be able to commit. It is, unless a
record that it writes has versions of which the last one has ended: the commit numbers its version
as if there was none before, and the install refuses a number that was given out already.

* `LoneWriter`: a store that clients filled, an engine over it, and a transaction with writes.
* `Engine.SettlesAlone`, `LoneWriter.settles`: how its commit ends.
-/

namespace Mvcc

open Store (chainIn)

/-- An engine over a store that clients filled. -/
def Engine.filled (s : Store) (qs : List Request) : Engine :=
  ofStore (Request.run Store.serve s qs).2

/-- A transaction with writes on an engine over a store that clients filled. It began after `ops`, and
in `rest` nothing is committed. -/
structure LoneWriter (s : Store) (qs : List Request) (ops rest : List Op) (id : TxnId) (t : Txn) :
    Prop where
  tree_eq : s.tree = ∅
  maxTs_eq : s.maxTs = 0
  fits : ∀ q ∈ qs, q.Fits
  granted : s.Granted qs
  /-- Numbers are left for the commits. -/
  numbers : ∀ q ∈ qs, ∀ v ∈ q.puts, v.number.toNat + ops.countP Op.isCommit + 1 < UInt64.size
  /-- Timestamps are left for all that takes one, this commit included. -/
  times : ∀ ts ∈ 0 :: qs.flatMap Request.times,
    ts.toNat + (ops ++ rest).countP Op.draws + 1 < UInt64.size
  opsFit : ∀ op ∈ ops ++ rest, op.Fits
  active : ((Engine.filled s qs).after (ops ++ rest)).Active id t
  began : ((Engine.filled s qs).after ops).engine.clock.last < t.beginTs
  alone : ∀ op ∈ rest, op.isCommit = false
  writes : t.writes.isEmpty = false
  served : ((Engine.filled s qs).after (ops ++ rest)).engine.store.Served
    (((Engine.filled s qs).after (ops ++ rest)).step (.commit id)).2.engine.store

/-- How the commit of a transaction ends that nothing is in the way of. -/
structure Engine.SettlesAlone (g : Engine) (ops : List Op) (id : TxnId) (t : Txn) : Prop where
  begins : ∀ pre, pre ++ [.begin] <+: ops → ∃ i ts, ((g.after pre).step .begin).1 = .began i ts
  /-- It takes place if no record that is written has a last version that has ended. -/
  committed_iff : (∃ ts, ((g.after ops).step (.commit id)).1 = .committed ts) ↔
    ∀ k w, t.writes.get? k = some w → ∃ c, chainIn (g.after ops).engine.store.tree k = .ok c ∧
      ∀ u ∈ c.getLast?, u.endTs = none
  /-- Or else the version of such a record is refused, for it is numbered as the first one. -/
  refused : (∃ ts, ((g.after ops).step (.commit id)).1 = .committed ts) ∨
    ∃ k w, t.writes.get? k = some w ∧
      ∃ c, chainIn (g.after ops).engine.store.tree k = .ok c ∧
        ∃ u ∈ c.getLast?, u.endTs ≠ none ∧ ((g.after ops).step (.commit id)).1 =
          .failed (.storage (.refused (.staleNumber k 0 u.number)))
  installed : ∀ ts, ((g.after ops).step (.commit id)).1 = .committed ts →
    ∀ k w, t.writes.get? k = some w → ∃ c c' n,
      chainIn (g.after ops).engine.store.tree k = .ok c ∧
      chainIn ((g.after ops).step (.commit id)).2.engine.store.tree k = .ok c' ∧
      c'.getLast? = some { key := k, number := n, payload := w.payload, beginTs := ts } ∧
      ∀ u ∈ c, u.number < n

namespace LoneWriter

variable {s : Store} {qs : List Request} {ops rest : List Op} {id : TxnId} {t : Txn}

open Session

theorem exists_start (h : LoneWriter s qs ops rest id t) :
    ∃ c : Catalog, (Engine.filled s qs).session.Lodges c ∧
      c.Within (UInt64.size - 1 - ops.countP Op.isCommit) (Engine.filled s qs).clock.last := by
  obtain ⟨c, hencodes, hwithin⟩ := h.granted.exists_within h.tree_eq h.fits
    (n := UInt64.size - 1 - ops.countP Op.isCommit) fun q hq v hv => by
      have hnumber := h.numbers q hq v hv
      omega
  refine ⟨c, ⟨hencodes, rfl, fun i u hu => ?_, fun i u hu => ?_⟩, hwithin⟩
  · cases hu.1
  · cases hu.1

theorem clock_lt (h : LoneWriter s qs ops rest id t) {pre : List Op} (hpre : pre <+: ops ++ rest) :
    ((Engine.filled s qs).after pre).engine.clock.last.toNat + 1 < UInt64.size := by
  have hstart := s.maxTs_run_mem qs
  rw [h.maxTs_eq] at hstart
  have hleft := h.times _ hstart
  have hrun : ((Engine.filled s qs).after pre).engine.clock.last.toNat ≤
      (Request.run Store.serve s qs).2.maxTs.toNat + pre.countP Op.draws :=
    clock_run_le_draws (Engine.filled s qs).session pre
  have hcount : pre.countP Op.draws ≤ (ops ++ rest).countP Op.draws := hpre.sublist.countP_le
  omega

theorem begins (h : LoneWriter s qs ops rest id t) {pre : List Op}
    (hpre : pre ++ [.begin] <+: ops ++ rest) :
    ∃ i ts, (((Engine.filled s qs).after pre).step .begin).1 = .began i ts := by
  have hlt := h.clock_lt ((List.prefix_append pre [.begin]).trans hpre)
  rw [step, Engine.begin]
  cases htick : ((Engine.filled s qs).after pre).engine.clock.tick? with
  | none =>
    rw [(Clock.tick?_eq_none_iff _).1 htick] at hlt
    exact absurd hlt (by decide)
  | some clock => exact ⟨_, _, rfl⟩

theorem exists_catalog (h : LoneWriter s qs ops rest id t) :
    ∃ c : Catalog, ((Engine.filled s qs).after (ops ++ rest)).Lodges c ∧
      c.Within (UInt64.size - 1) ((Engine.filled s qs).after ops).engine.clock.last := by
  obtain ⟨c₀, h₀, hwithin₀⟩ := h.exists_start
  obtain ⟨c₁, h₁, hwithin₁⟩ := h₀.exists_run hwithin₀ fun op hop =>
    h.opsFit op (List.mem_append_left _ hop)
  obtain ⟨c, hc, hsame⟩ := h₁.exists_run_alone
    (fun op hop => h.opsFit op (List.mem_append_right _ hop)) h.alone
  refine ⟨c, ?_, hsame _ _ (hwithin₁.mono ?_ (UInt64.le_refl _))⟩
  · rw [Engine.after_append]
    exact hc
  · -- numbers rise with the commits, and each of those may take a timestamp
    have hcommits : ops.countP Op.isCommit ≤ (ops ++ rest).countP Op.draws := by
      rw [List.countP_append]
      refine Nat.le_add_right_of_le (List.countP_mono_left fun op _ hop => ?_)
      cases op <;> first | rfl | cases hop
    have hleft := h.times 0 List.mem_cons_self
    omega

/-- The commit of a lone writer installs its versions, or one of them may not follow. -/
theorem exists_outcome (h : LoneWriter s qs ops rest id t) :
    ∃ c : Catalog, ((Engine.filled s qs).after (ops ++ rest)).Lodges c ∧
      ((∃ g' held c', ((Engine.filled s qs).after (ops ++ rest)).step (.commit id) =
            (.committed g'.clock.last, { engine := g', held }) ∧
          c.install [] (Chains.versions c.chain t.writes g'.clock.last) = .ok c' ∧
          g'.store.tree.Encodes c'.chain ∧
          ∀ k w, t.writes.get? k = some w → ∀ u ∈ (c.chain k).getLast?, u.endTs = none) ∨
        ∃ k w, t.writes.get? k = some w ∧ ∃ u ∈ (c.chain k).getLast?, u.endTs ≠ none ∧
          (((Engine.filled s qs).after (ops ++ rest)).step (.commit id)).1 =
            .failed (.storage (.refused (.staleNumber k 0 u.number)))) := by
  obtain ⟨c, hlodges, hwithin⟩ := h.exists_catalog
  obtain ⟨r, g', held, heq, hlands⟩ := hlodges.exists_step_commit h.active
  have hinstall {clock : Clock}
      (tick : ((Engine.filled s qs).after (ops ++ rest)).engine.clock.tick? = some clock) :=
    @Catalog.install_versions c t.writes clock.last fun k u hu => by
      obtain ⟨hnumber, hbegin⟩ := hwithin k u (List.mem_of_getLast? hu)
      have hle := clock_le_run ((Engine.filled s qs).after ops) rest
      rw [Engine.after_append] at tick
      have hlt := Clock.lt_last_of_tick? tick
      exact ⟨by omega, UInt64.lt_of_le_of_lt (UInt64.le_trans hbegin hle) hlt⟩
  refine ⟨c, hlodges, ?_⟩
  rw [heq]
  cases hlands with
  | failed reason =>
    exfalso
    rcases reason with hconflict | hspent | hserved
    · refine hconflict (Chains.conflict?_eq_none_of_le (hlodges.readTs_eq id t h.active) ?_ _)
      exact fun k v hv => UInt64.le_trans (hwithin k v hv).2 (UInt64.le_of_lt h.began)
    · have hlt := h.clock_lt List.prefix_rfl
      rw [hspent] at hlt
      exact absurd hlt (by decide)
    · have hall := h.served
      rw [heq] at hall
      exact hserved hall
  | settled writes =>
    rw [h.writes] at writes
    cases writes
  | refused tick install =>
    rcases hinstall tick with ⟨⟨c', hc'⟩, -⟩ | ⟨k, w, hw, u, hu, hended, herror⟩
    · cases install.symm.trans hc'
    · cases install.symm.trans herror
      exact Or.inr ⟨k, w, hw, u, hu, hended, rfl⟩
  | @wrote c' tick install encodes =>
    rcases hinstall tick with ⟨-, hopen⟩ | ⟨k, w, hw, u, hu, hended, herror⟩
    · exact Or.inl ⟨g', held, c', rfl, install, encodes, hopen⟩
    · cases install.symm.trans herror

/-- The commit of a lone writer takes place, with numbers above all that are stored, if no record that
it writes ends in a version that has ended, and only then. -/
theorem settles (h : LoneWriter s qs ops rest id t) :
    (Engine.filled s qs).SettlesAlone (ops ++ rest) id t := by
  obtain ⟨c, hlodges, houtcome⟩ := h.exists_outcome
  have hfits : ∀ k w, t.writes.get? k = some w → k.Fits := fun k w hw =>
    ((hlodges.fits id t h.active).writes (k, w) ((OrderedMap.mem_toList_iff _ _ _).2 hw)).1
  have hchain : ∀ k w, t.writes.get? k = some w →
      chainIn ((Engine.filled s qs).after (ops ++ rest)).engine.store.tree k = .ok (c.chain k) :=
    fun k w hw => Store.chainIn_eq hlodges.encodes (hfits k w hw)
  rcases houtcome with ⟨g', held, c', heq, install, encodes, hopen⟩ | ⟨k, w, hw, u, hu, hended, heq⟩
  · refine ⟨fun pre => h.begins, ?_, Or.inl ⟨_, by rw [heq]⟩, fun ts hts k w hw => ?_⟩
    · rw [heq]
      exact ⟨fun _ k w hw => ⟨_, hchain k w hw, hopen k w hw⟩, fun _ => ⟨_, rfl⟩⟩
    · rw [heq] at hts ⊢
      cases hts
      obtain ⟨hlast, hlt⟩ := Catalog.last_of_install hlodges.encodes install hw
      exact ⟨_, _, _, hchain k w hw, Store.chainIn_eq encodes (hfits k w hw), hlast, hlt⟩
  · refine ⟨fun pre => h.begins, ?_, Or.inr ⟨k, w, hw, _, hchain k w hw, u, hu, hended, heq⟩,
      fun ts hts => ?_⟩
    · rw [heq]
      refine ⟨fun ⟨ts, hts⟩ => (by cases hts), fun hall => ?_⟩
      obtain ⟨l, hl, hopen⟩ := hall k w hw
      cases (hchain k w hw).symm.trans hl
      exact absurd (hopen u hu) hended
    · rw [heq] at hts
      cases hts

end LoneWriter

namespace Engine

/-- One record is new and the other has an open version. -/
theorem settles_alone_open :
    let k : RecordKey := ⟨"t", .int 1⟩
    let first : Version := { key := k, number := 4, payload := some [7], beginTs := 2 }
    let ops : List Op := [.begin, .write ⟨1⟩ k [8], .commit ⟨1⟩]
    let rest : List Op := [.begin, .delete ⟨2⟩ k, .write ⟨2⟩ ⟨"t", .int 2⟩ []]
    let writes : WriteSet := ((∅ : WriteSet).put k none).put ⟨"t", .int 2⟩ (some [])
    let t : Txn := { id := ⟨2⟩, beginTs := 5, writes }
    LoneWriter Store.empty [.append first] ops rest ⟨2⟩ t ∧
      (filled Store.empty [.append first]).SettlesAlone (ops ++ rest) ⟨2⟩ t ∧
      (((filled Store.empty [.append first]).after (ops ++ rest)).step (.commit ⟨2⟩)).1 =
        .committed 6 := by
  intro k first ops rest writes t
  have hk : k.Fits := Op.fits_key 1
  have lone : LoneWriter Store.empty [.append first] ops rest ⟨2⟩ t := by
    refine ⟨rfl, rfl, ?_, by decide +kernel, by decide +kernel, ?_, ?_,
      ⟨by decide +kernel, rfl⟩, by decide +kernel, by decide, by decide +kernel, by decide +kernel⟩
    · simp [Request.Fits, Version.Fits, first, hk, UInt64.size]
    · simp [ops, rest, first, Request.times, List.countP_cons, Op.draws, UInt64.size]
    · simp [ops, rest, Op.Fits, Op.fits_key, k, UInt64.size]
  exact ⟨lone, lone.settles, by decide +kernel⟩

/-- A client ended the only version of a record. A transaction alone writes the record, and its commit
is refused: it numbers its version as the first one. -/
theorem refused_after_close :
    let k : RecordKey := ⟨"t", .int 1⟩
    let first : Version := { key := k, number := 0, payload := some [7], beginTs := 1 }
    let qs : List Request := [.append first, .close k 2]
    let rest : List Op := [.begin, .write ⟨1⟩ k [8]]
    LoneWriter Store.empty qs [] rest ⟨1⟩
        { id := ⟨1⟩, beginTs := 3, writes := (∅ : WriteSet).put k (some [8]) } ∧
      chainIn ((filled Store.empty qs).after rest).engine.store.tree k = .ok [first.closedAt 2] ∧
      (((filled Store.empty qs).after rest).step (.commit ⟨1⟩)).1 =
        .failed (.storage (.refused (.staleNumber k 0 0))) := by
  intro k first qs rest
  have hk : k.Fits := Op.fits_key 1
  have lone : LoneWriter Store.empty qs [] rest ⟨1⟩
      { id := ⟨1⟩, beginTs := 3, writes := (∅ : WriteSet).put k (some [8]) } := by
    refine ⟨rfl, rfl, ?_, by decide +kernel, by decide +kernel, ?_, ?_,
      ⟨by decide +kernel, rfl⟩, by decide +kernel, by decide, by decide +kernel, by decide +kernel⟩
    · simp [qs, Request.Fits, Version.Fits, first, hk, UInt64.size]
    · simp [qs, rest, first, Request.times, List.countP_cons, Op.draws, UInt64.size]
    · simp [rest, Op.Fits, Op.fits_key, k, UInt64.size]
  exact ⟨lone, by decide +kernel, by decide +kernel⟩

end Engine

end Mvcc
