import Mvcc.Proofs.Annals
import Mvcc.Proofs.ChainInvariant
import Mvcc.Proofs.Chronicle
import Mvcc.Proofs.Maxima

/-!
# Engines that take up what others left

An engine that is opened on a tree reads its clock off the versions in it. Collections take versions
away, but never the last one of a record, so the greatest timestamp that was committed is still
there.

* `Store.exists_recover`: what comes of taking a medium into use.
* `Keeps.lastTs_le_iff`: the timestamps in a chain are bounded as those of its history.
* `Chapter.writers`, `Chapter.lastWrite`: the history of several engines, and its end.
* `Engine.Resumed`, with `Resumed.annals`: engines one after the other, each opened on the tree that
  the one before left.
-/

namespace Mvcc

open Session

namespace Chain

theorem Keeps.lastTs_le_iff {c : Chain} {ws : List (Timestamp × Option Payload)}
    {past : Timestamp → Prop} (h : c.Keeps ws past) (hc : c.Linked)
    (hws : ws.Pairwise fun w w' => w.1 < w'.1) (x : Timestamp) :
    (∀ v ∈ c, v.lastTs ≤ x) ↔ ∀ w ∈ ws, w.1 ≤ x := by
  have hlast := h.getLast?_eq
  constructor
  · intro hle w hw
    cases hl : c.getLast? with
    | none =>
      rw [hl, Option.map_none] at hlast
      rw [List.getLast?_eq_none_iff.1 hlast.symm] at hw
      cases hw
    | some v =>
      rw [hl, Option.map_some] at hlast
      have hv := hle v (List.mem_of_getLast? hl)
      rw [Version.lastTs, hc.open_last v hl] at hv
      exact UInt64.le_trans (Trace.le_of_getLast? hws hlast.symm w hw) hv
  · intro hle v hv
    obtain ⟨n, hmarks, -⟩ := h
    have hbegin : ∀ u ∈ c, u.beginTs ≤ x := fun u hu => hle u.mark
      (List.mem_of_mem_drop (hmarks ▸ List.mem_map_of_mem hu : u.mark ∈ ws.drop n))
    rw [Version.lastTs]
    cases hend : v.endTs with
    | none => exact hbegin v hv
    | some e =>
      -- a version ends when a later one begins
      obtain ⟨-, u, hu, rfl⟩ := hc.exists_next hv hend
      exact hbegin u hu

end Chain

namespace Store

/-- Taking a medium into use comes to a store that knows the greatest timestamp in the tree, or
fails with the medium. -/
theorem exists_recover {m : Medium} {a : Chains} (h : m.tree.Encodes a) :
    ∃ r m', recover m = (r, m') ∧
      ((∃ s, r = .ok s ∧ s.tree = m.tree ∧
          ∀ x, s.maxTs ≤ x ↔ ∀ k, ∀ v ∈ a k, v.lastTs ≤ x) ∨
        (∃ e, r = .error e) ∧ ¬ m.plan.Serves m.tally m'.tally) := by
  obtain ⟨vs, hans, -, hlists⟩ := h.answers_versions
  obtain ⟨-, hr⟩ := hans m.plan m.tally
  have hread : m.read Probe.versions = (_, _) := Prod.mk.eta.symm
  rw [recover]
  rcases hr with hr | ⟨⟨e, hr⟩, hserves⟩
  · have hr' : (m.read Probe.versions).1 = .ok (vs.map fun v => (v.entry.1, v)) := hr
    rw [hr'] at hread
    rw [hread]
    refine ⟨_, _, rfl, Or.inl ⟨_, rfl, rfl, fun x => ?_⟩⟩
    show greatestTs _ ≤ x ↔ _
    rw [greatestTs, Timestamp.foldl_max_le_iff]
    constructor
    · rintro ⟨-, hle⟩ k v hv
      refine hle (v.entry.1, v) (List.mem_map_of_mem ((hlists.mem_iff v).2 ?_))
      rwa [h.key_eq k v hv]
    · refine fun hle => ⟨UInt64.zero_le, fun e he => ?_⟩
      obtain ⟨v, hv, rfl⟩ := List.mem_map.1 he
      exact hle v.key v ((hlists.mem_iff v).1 hv)
  · have hr' : (m.read Probe.versions).1 = .error e := hr
    rw [hr'] at hread
    rw [hread]
    exact ⟨_, _, rfl, Or.inr ⟨⟨e, rfl⟩, hserves⟩⟩

end Store

/-! ## Several engines -/

namespace Chapter

/-- When every key was written by any of the engines, and what was left under it. -/
def writers (past : List Chapter) : History := fun k => past.flatMap fun c => c.trace.writers k

/-- The greatest timestamp at which anything was written; zero without any. -/
def lastWrite (past : List Chapter) : Timestamp :=
  (past.flatMap fun c => c.trace.commits.filter (·.wrote)).foldl (fun ts d => max ts d.ts) 0

theorem writers_concat (past : List Chapter) (c : Chapter) (k : RecordKey) :
    writers (past ++ [c]) k = writers past k ++ c.trace.writers k := by
  rw [writers, List.flatMap_append, List.flatMap_singleton]
  rfl

theorem lastWrite_le_iff (past : List Chapter) (x : Timestamp) :
    lastWrite past ≤ x ↔ ∀ k, ∀ w ∈ writers past k, w.1 ≤ x := by
  rw [lastWrite, Timestamp.foldl_max_le_iff]
  simp only [List.mem_flatMap, List.mem_filter, writers]
  constructor
  · rintro ⟨-, hle⟩ k w ⟨c, hc, hw⟩
    obtain ⟨d, hd, hleft, hts⟩ := (Trace.mem_writers c.trace).1 hw
    refine hts ▸ hle d ⟨c, hc, hd, (Commit.wrote_iff d).2 ⟨k, ?_⟩⟩
    rw [hleft]
    exact Option.some_ne_none _
  · refine fun hle => ⟨UInt64.zero_le, ?_⟩
    rintro d ⟨c, hc, hd, hwrote⟩
    obtain ⟨k, hleft⟩ := (Commit.wrote_iff d).1 hwrote
    obtain ⟨p, hp⟩ := Option.ne_none_iff_exists'.1 hleft
    exact hle k (d.ts, p) ⟨c, hc, (Trace.mem_writers _).2 ⟨d, hd, hp, rfl⟩⟩

end Chapter

namespace Engine

/-- What an engine was asked and answered. -/
def chapter (g : Engine) (ops : List Op) : Chapter := ⟨g.collectEvery, g.trace ops⟩

/-- Engines one after the other. The first one begins on an empty tree, and each of the others on
the tree that the one before left, with a clock that is ahead of all that is found there. -/
inductive Resumed : List Chapter → Engine → Prop
  | first {store : Store} (tree_eq : store.tree = ∅) (clock : Clock) (every : Option UInt64) :
    Resumed [] (withClock store clock every)
  | again {past : List Chapter} {g : Engine} {ops : List Op} {m : Medium} {store : Store}
    (resumed : Resumed past g) (fits : ∀ op ∈ ops, op.Fits)
    (tree_eq : m.tree = (g.after ops).engine.store.tree)
    (recovered : (Store.recover m).1 = .ok store) {clock : Clock}
    (ahead : store.maxTs ≤ clock.last) (every : Option UInt64) :
    Resumed (past ++ [g.chapter ops]) (withClock store clock every)

variable {past : List Chapter} {g : Engine}

theorem Resumed.annals_nil (h : Resumed past g) :
    ∃ a, Trace.Annals (Chapter.writers past) [] g.session a := by
  induction h with
  | @first store tree_eq clock every =>
    have hencodes : store.tree.Encodes fun _ => [] := tree_eq ▸ Tree.encodes_empty
    exact ⟨_, Trace.annals_nil hencodes Chains.sound_empty rfl (fun _ => Chain.keeps_nil)
      (fun _ => rfl) (fun _ => List.Pairwise.nil) (by simp [Chapter.writers])⟩
  | @again past g ops m store resumed fits tree_eq recovered clock ahead every ih =>
    obtain ⟨a₀, h₀⟩ := ih
    obtain ⟨a, ha, -⟩ := h₀.run ops fits
    have hencodes : m.tree.Encodes a := tree_eq ▸ ha.stands.encodes
    have hwriters : ∀ k, Chapter.writers (past ++ [g.chapter ops]) k =
        Chapter.writers past k ++ (g.trace ops).writers k := Chapter.writers_concat past _
    obtain ⟨r, m', heq, hr⟩ := Store.exists_recover hencodes
    rw [heq] at recovered
    obtain rfl : r = .ok store := recovered
    obtain ⟨s, hs, htree, hmax⟩ := hr.resolve_right fun ⟨⟨e, he⟩, _⟩ => by cases he
    cases hs
    refine ⟨a, Trace.annals_nil ?_ ha.stands.sound rfl (fun k => ?_) (fun k => ?_) (fun k => ?_)
      fun k w hw => ?_⟩
    · show store.tree.Encodes a
      rw [htree]
      exact hencodes
    · rw [hwriters]
      exact (ha.kept k).mono fun _ _ _ => trivial
    · rw [hwriters]
      exact ha.counted k
    · rw [hwriters]
      exact ha.ascending k
    · rw [hwriters] at hw
      have hbound := (ha.kept k).lastTs_le_iff (ha.stands.sound.linked k) (ha.ascending k) clock.last
      exact hbound.1 (fun v hv => (hmax clock.last).1 ahead k v hv) w hw

theorem Resumed.annals (h : Resumed past g) (ops : List Op) (hops : ∀ op ∈ ops, op.Fits) :
    ∃ a, (g.trace ops).Annals (Chapter.writers past) (g.after ops) a := by
  obtain ⟨a₀, h₀⟩ := h.annals_nil
  obtain ⟨a, ha, -⟩ := h₀.run ops hops
  exact ⟨a, ha⟩

/-- Whenever an engine is given up, the tree can be taken up again, and the greatest timestamp in it
is the last at which anything was written. -/
theorem Resumed.exists_recover (h : Resumed past g) (ops : List Op) (hops : ∀ op ∈ ops, op.Fits)
    {m : Medium} (htree : m.tree = (g.after ops).engine.store.tree) :
    ∃ r m', Store.recover m = (r, m') ∧
      ((∃ s, r = .ok s ∧ s.tree = m.tree ∧
          s.maxTs = Chapter.lastWrite (past ++ [g.chapter ops])) ∨
        (∃ e, r = .error e) ∧ ¬ m.plan.Serves m.tally m'.tally) := by
  obtain ⟨a, ha⟩ := h.annals ops hops
  have hencodes : m.tree.Encodes a := htree ▸ ha.stands.encodes
  obtain ⟨r, m', heq, hr⟩ := Store.exists_recover hencodes
  refine ⟨r, m', heq, hr.imp_left ?_⟩
  rintro ⟨s, rfl, hs, hmax⟩
  refine ⟨s, rfl, hs, Timestamp.eq_of_le_iff fun x => ?_⟩
  rw [hmax, Chapter.lastWrite_le_iff]
  refine forall_congr' fun k => ?_
  rw [Chapter.writers_concat]
  exact (ha.kept k).lastTs_le_iff (ha.stands.sound.linked k) (ha.ascending k) x

theorem Resumed.exists_store (h : Resumed past g) (ops : List Op) (hops : ∀ op ∈ ops, op.Fits) :
    ∃ s, (Store.recover (Medium.ofTree (g.after ops).engine.store.tree)).1 = .ok s ∧
      s.tree = (g.after ops).engine.store.tree ∧
      s.maxTs = Chapter.lastWrite (past ++ [g.chapter ops]) := by
  have htree : (Medium.ofTree (g.after ops).engine.store.tree).tree =
      (g.after ops).engine.store.tree := rfl
  obtain ⟨r, m', heq, hr⟩ := h.exists_recover ops hops htree
  obtain ⟨s, rfl, hs, hmax⟩ := hr.resolve_right fun hn => hn.2 fun _ _ _ _ => rfl
  exact ⟨s, by rw [heq], hs, hmax⟩

theorem Resumed.reopen (h : Resumed past g) {ops : List Op} (hops : ∀ op ∈ ops, op.Fits) {s : Store}
    (recovered : (Store.recover (Medium.ofTree (g.after ops).engine.store.tree)).1 = .ok s) :
    Resumed (past ++ [g.chapter ops]) (ofStore s) :=
  @Resumed.again past g ops (Medium.ofTree (g.after ops).engine.store.tree) s h hops rfl recovered
    { last := s.maxTs } (UInt64.le_refl _) none

end Engine

end Mvcc
