import Mvcc.Engine.Basic
import Mvcc.Proofs.Granted
import Mvcc.Proofs.Restart

/-!
# What a store remembers and what its tree shows

A store remembers the greatest timestamp it was told of. A store that is made anew of the same tree
reads it off the versions that are there. Both come to the same after every version that is added or
ended, but a prune may take away the last trace of it.

* `Chain.Until`, `Catalog.Until`: nothing begins or ends later, with one rule for each change.
* `Catalog.until_serve`: every granted request but a prune moves the bound by its timestamps.
* `Catalog.until_prune_iff`: what a prune must leave.
* `Store.Recalls`, `Store.Outlives`: what is remembered can be read off the tree, and still can after
  a prune.
* `Granted.recalls_iff`: the result for every run of granted requests, with `forgotten_after_prune`.
-/

namespace Mvcc

namespace Version

variable {v : Version}

theorem lastTs_of_open (h : v.endTs = none) : v.lastTs = v.beginTs := by
  rw [lastTs, h]
  rfl

@[simp] theorem lastTs_closedAt (v : Version) (ts : Timestamp) : (v.closedAt ts).lastTs = ts := rfl

theorem lastTs_le_of_endedBy {ts : Timestamp} (h : v.endedBy ts = true) : v.lastTs ≤ ts := by
  cases hend : v.endTs with
  | none => simp [endedBy, hend] at h
  | some e => simpa [lastTs, endedBy, hend] using h

theorem endTs_eq_none_of_lastTs_le {ts : Timestamp} (h : v.endedBy ts = false)
    (hle : v.lastTs ≤ ts) : v.endTs = none := by
  cases hend : v.endTs with
  | none => rfl
  | some e =>
    have hle' : e ≤ ts := by simpa [lastTs, hend] using hle
    simp [endedBy, hend, hle'] at h

end Version

/-! ## Chains -/

/-- No version carries a timestamp after `x`. -/
def Chain.Until (c : Chain) (x : Timestamp) : Prop := ∀ v ∈ c, v.lastTs ≤ x

namespace Chain

variable {l l' : Chain} {v : Version} {x : Timestamp}

theorem until_concat : Until (l ++ [v]) x ↔ l.Until x ∧ v.lastTs ≤ x := by
  simp only [Until, List.forall_mem_append, List.forall_mem_singleton]

theorem until_close_last {ts : Timestamp} (opened : v.endTs = none) (later : v.beginTs < ts) :
    Until (l ++ [v.closedAt ts]) x ↔ Until (l ++ [v]) x ∧ ts ≤ x := by
  rw [until_concat, until_concat, Version.lastTs_closedAt, Version.lastTs_of_open opened, and_assoc]
  exact and_congr_right fun _ =>
    ⟨fun hts => ⟨UInt64.le_trans (UInt64.le_of_lt later) hts, hts⟩, And.right⟩

theorem until_closed {k : RecordKey} {ts : Timestamp} (h : l.closed k ts = .ok l') :
    l'.Until x ↔ l.Until x ∧ ts ≤ x := by
  unfold Chain.closed at h
  cases hl : l.getLast? with
  | none =>
    rw [hl] at h
    cases h
  | some u =>
    rw [hl] at h
    simp only at h
    split_ifs at h with hu hle
    cases h
    obtain ⟨m, rfl⟩ := List.getLast?_eq_some_iff.1 hl
    rw [List.dropLast_concat]
    exact until_close_last (u.isOpen_iff.1 hu) (UInt64.not_le.1 hle)

end Chain

theorem Request.Alters.until_iff {q : Request} {k : RecordKey} {l l' : Chain} {v : Version}
    {x : Timestamp} (h : q.Alters k l l') (put : v ∈ q.puts) (key : v.key = k) :
    l'.Until x ↔ l.Until x ∧ v.beginTs ≤ x := by
  cases h with
  | same spared => exact absurd key (spared v put)
  | @extended w _ only _ opened =>
    obtain rfl : v = w := only v put key
    rw [Chain.until_concat, Version.lastTs_of_open opened]
  | @succeeded m u w _ only _ opened chain last _ later =>
    subst chain
    obtain rfl : v = w := only v put key
    rw [List.append_cons, Chain.until_concat, Chain.until_close_last last later,
      Version.lastTs_of_open opened, and_assoc, and_self]
  | ended asked =>
    subst asked
    cases put
  | pruned asked =>
    subst asked
    cases put

/-! ## Catalogs -/

namespace Catalog

variable {c c' : Catalog} {q : Request} {y : Response} {x m ts : Timestamp}

/-- No version carries a timestamp after `x`. -/
def Until (c : Catalog) (x : Timestamp) : Prop := ∀ k, (c.chain k).Until x

theorem until_empty (x : Timestamp) : (∅ : Catalog).Until x := by
  intro k v hv
  cases hv

theorem until_put {k : RecordKey} {l : Chain}
    (hl : l.Until x ↔ (c.chain k).Until x ∧ ts ≤ x) : (c.put k l).Until x ↔ c.Until x ∧ ts ≤ x := by
  unfold Until
  constructor
  · intro h
    obtain ⟨hk, hts⟩ := hl.1 (by simpa [chain_put] using h k)
    refine ⟨fun k' => ?_, hts⟩
    by_cases he : k' = k
    · exact he ▸ hk
    · simpa [chain_put, he] using h k'
  · rintro ⟨h, hts⟩ k'
    rw [chain_put]
    split_ifs
    · exact hl.2 ⟨h k, hts⟩
    · exact h k'

theorem until_install {vs : List Version} (h : c.serve (.install vs) = (.ok y, c')) :
    c'.Until x ↔ c.Until x ∧ ∀ v ∈ vs, v.beginTs ≤ x := by
  have halters := alters_serve h
  have hsame : ∀ k, (∀ v ∈ vs, k ≠ v.key) → c'.chain k = c.chain k := by
    intro k hk
    have hchain := c.chain_serve (q := .install vs) hk
    rwa [h] at hchain
  constructor
  · refine fun hx => ⟨fun k => ?_, fun v hv => (((halters v.key).until_iff hv rfl).1 (hx _)).2⟩
    by_cases hk : ∃ v ∈ vs, k = v.key
    · obtain ⟨v, hv, rfl⟩ := hk
      exact (((halters v.key).until_iff hv rfl).1 (hx _)).1
    · rw [← hsame k fun v hv he => hk ⟨v, hv, he⟩]
      exact hx k
  · rintro ⟨hx, hle⟩ k
    by_cases hk : ∃ v ∈ vs, k = v.key
    · obtain ⟨v, hv, rfl⟩ := hk
      exact ((halters v.key).until_iff hv rfl).2 ⟨hx _, hle v hv⟩
    · rw [hsame k fun v hv he => hk ⟨v, hv, he⟩]
      exact hx k

theorem until_serve (h : c.serve q = (.ok y, c')) (kept : ∀ ts, q ≠ .prune ts) :
    c'.Until x ↔ c.Until x ∧ ∀ ts ∈ q.times, ts ≤ x := by
  cases q with
  | append v =>
    have halters := alters_serve h v.key
    obtain ⟨l, -, rfl⟩ := exists_of_changed h
    rw [chain_put, if_pos rfl] at halters
    rw [until_put (halters.until_iff List.mem_cons_self rfl), Request.times,
      List.forall_mem_singleton]
  | close k ts =>
    obtain ⟨l, hl, rfl⟩ := exists_of_changed h
    rw [until_put (Chain.until_closed hl), Request.times, List.forall_mem_singleton]
  | install vs => rw [until_install h, Request.times, List.forall_mem_map]
  | prune ts => exact absurd rfl (kept ts)
  | visible | latest | chain =>
    cases h
    simp [Request.times]

theorem mem_chain_prune {k : RecordKey} {v : Version} :
    v ∈ (c.prune ts).chain k ↔ v ∈ c.chain k ∧ v.endedBy ts = false := by
  rw [chain_prune, List.mem_filter, Bool.not_eq_true']

theorem Until.of_prune (h : (c.prune ts).Until x) : c.Until (max ts x) := by
  intro k v hv
  by_cases hended : v.endedBy ts = true
  · exact UInt64.le_trans (Version.lastTs_le_of_endedBy hended) (Timestamp.le_max_left ts x)
  · have hkept := mem_chain_prune.2 ⟨hv, Bool.eq_false_iff.2 hended⟩
    exact UInt64.le_trans (h k v hkept) (Timestamp.le_max_right ts x)

/-- A prune leaves the greatest timestamp `m` in the catalog if that is later, or is the begin of a
version that is open. -/
theorem until_prune_iff (hm : ∀ x, m ≤ x ↔ c.Until x) :
    (∀ x, m ≤ x ↔ (c.prune ts).Until x) ↔
      m = 0 ∨ ts < m ∨ ∃ k, ∃ v ∈ c.chain k, v.endTs = none ∧ v.beginTs = m := by
  have hbound := (hm m).1 (UInt64.le_refl m)
  constructor
  · intro h
    by_contra hno
    simp only [not_or, not_exists, not_and, UInt64.not_lt] at hno
    obtain ⟨hzero, hle, hopen⟩ := hno
    -- all that is left is earlier than `m`
    have hearlier : (c.prune ts).Until (m - 1) := by
      intro k v hv
      obtain ⟨hv, hended⟩ := mem_chain_prune.1 hv
      have hv' := hbound k v hv
      have hne : v.lastTs ≠ m := by
        rintro rfl
        have hend := Version.endTs_eq_none_of_lastTs_le hended hle
        exact hopen k v hv hend (Version.lastTs_of_open hend).symm
      grind
    have habsurd := (h (m - 1)).2 hearlier
    grind
  · intro h x
    refine ⟨fun hx k v hv => (hm x).1 hx k v (mem_chain_prune.1 hv).1, fun hx => ?_⟩
    rcases h with rfl | hlt | ⟨k, v, hv, hopen, rfl⟩
    · exact UInt64.zero_le
    · -- what was pruned ended before `m`, so what is left reaches up to it
      have hle := (hm _).2 hx.of_prune
      rcases Timestamp.max_cases ts x with he | he
      · rw [he] at hle
        exact absurd hlt (UInt64.not_lt.2 hle)
      · exact he ▸ hle
    · have hkept := hx k v (mem_chain_prune.2 ⟨hv, by simp [Version.endedBy, hopen]⟩)
      rwa [Version.lastTs_of_open hopen] at hkept

end Catalog

/-! ## Stores -/

namespace Store

variable {s : Store} {c : Catalog} {q : Request} {qs : List Request}

/-- A store that is made anew of the same tree remembers the same, and an engine over either goes on
from the same timestamp. -/
def Recalls (s : Store) : Prop :=
  ∃ s', (recover (Medium.ofTree s.tree)).1 = .ok s' ∧ s'.maxTs = s.maxTs ∧
    (Engine.ofStore s').clock = (Engine.ofStore s).clock

/-- The greatest timestamp that a store remembers can be read off its tree without the versions that
ended by `ts`: there is none, or it is later, or a version that is open began with it. -/
def Outlives (s : Store) (ts : Timestamp) : Prop :=
  s.maxTs = 0 ∨ ts < s.maxTs ∨ ∃ k : RecordKey, k.Fits ∧ ∃ l, chainIn s.tree k = .ok l ∧
    ∃ v ∈ l, v.endTs = none ∧ v.beginTs = s.maxTs

theorem recalls_iff_until (h : s.tree.Encodes c.chain) :
    s.Recalls ↔ ∀ x, s.maxTs ≤ x ↔ c.Until x := by
  obtain ⟨r, m, heq, hr⟩ := exists_recover (m := Medium.ofTree s.tree) h
  have hserved := served_of_reliable (s := { medium := Medium.ofTree s.tree }) rfl { medium := m }
  obtain ⟨s', rfl, -, hmax⟩ := hr.resolve_right fun hfailed => hfailed.2 hserved
  unfold Recalls
  rw [heq]
  constructor
  · rintro ⟨_, heq, hsame, -⟩
    cases heq
    exact hsame ▸ hmax
  · intro hall
    have hsame : s'.maxTs = s.maxTs :=
      Timestamp.eq_of_le_iff fun x => (hmax x).trans (hall x).symm
    exact ⟨s', rfl, hsame, by rw [Engine.ofStore, Engine.ofStore, hsame]; rfl⟩

theorem outlives_iff (h : s.tree.Encodes c.chain) {ts : Timestamp} :
    s.Outlives ts ↔ s.maxTs = 0 ∨ ts < s.maxTs ∨
      ∃ k, ∃ v ∈ c.chain k, v.endTs = none ∧ v.beginTs = s.maxTs := by
  refine or_congr_right (or_congr_right (exists_congr fun k => ?_))
  constructor
  · rintro ⟨hk, l, hl, hv⟩
    rw [chainIn_eq h hk] at hl
    cases hl
    exact hv
  · rintro ⟨v, hv, hopen⟩
    have hk : k.Fits := h.key_eq k v hv ▸ (h.fits k v hv).1
    exact ⟨hk, c.chain k, chainIn_eq h hk, v, hv, hopen⟩

theorem recalls_serve_iff (h : s.tree.Encodes c.chain) (hq : q.Fits)
    (granted : ∃ x, (s.serve q).1 = .ok x) (recalls : s.Recalls) :
    (s.serve q).2.Recalls ↔ ∀ ts, q = .prune ts → s.Outlives ts := by
  obtain ⟨x, hx⟩ := granted
  obtain ⟨y, c', hserve, hencodes⟩ := (follows_serve h hq).exists_of_ok hx
  have hbound := (recalls_iff_until h).1 recalls
  rw [recalls_iff_until hencodes, maxTs_of_ok hx]
  by_cases hprune : ∃ ts, q = .prune ts
  · obtain ⟨ts, rfl⟩ := hprune
    cases hserve
    rw [Request.times, List.foldl_nil, Catalog.until_prune_iff hbound, ← outlives_iff h]
    constructor
    · rintro houtlives _ ⟨rfl⟩
      exact houtlives
    · intro hall
      exact hall ts rfl
  · have hkept : ∀ ts, q ≠ .prune ts := fun ts hts => hprune ⟨ts, hts⟩
    refine iff_of_true (fun x => ?_) fun ts hts => absurd hts (hkept ts)
    rw [Catalog.until_serve hserve hkept, ← hbound x]
    exact Timestamp.foldl_max_le_iff id q.times s.maxTs x

theorem Granted.of_prefix {pre : List Request} (granted : s.Granted qs) (h : pre <+: qs) :
    s.Granted pre := by
  obtain ⟨post, rfl⟩ := h
  induction post using List.reverseRecOn with
  | nil => rwa [List.append_nil] at granted
  | append_singleton post q ih =>
    rw [← List.append_assoc] at granted
    exact ih (granted_concat granted).1

theorem recalls_of_empty (htree : s.tree = ∅) (hmax : s.maxTs = 0) : s.Recalls := by
  refine (recalls_iff_until (Tree.encodes_chain_empty htree)).2 fun x => ?_
  rw [hmax]
  exact iff_of_true UInt64.zero_le (Catalog.until_empty x)

/-- After requests that were all granted, on a store that was made of an empty tree: what is
remembered could be read off the tree all along if it outlived every prune, and only then. -/
theorem Granted.recalls_iff (htree : s.tree = ∅) (hmax : s.maxTs = 0) (fits : ∀ q ∈ qs, q.Fits)
    (granted : s.Granted qs) :
    (∀ pre, pre <+: qs → (Request.run serve s pre).2.Recalls) ↔
      ∀ pre ts, pre ++ [.prune ts] <+: qs → (Request.run serve s pre).2.Outlives ts := by
  have hnext : ∀ pre q, pre ++ [q] <+: qs → (Request.run serve s pre).2.Recalls →
      ((Request.run serve s (pre ++ [q])).2.Recalls ↔
        ∀ ts, q = .prune ts → (Request.run serve s pre).2.Outlives ts) := by
    intro pre q hpre hrecalls
    have hfits : ∀ q' ∈ pre ++ [q], q'.Fits := fun q' hq' => fits q' (hpre.subset hq')
    have hx := (granted_concat (granted.of_prefix hpre)).2
    obtain ⟨c, hencodes⟩ := exists_encodes_run (Tree.encodes_chain_empty htree)
      fun q' hq' => hfits q' (List.mem_append_left _ hq')
    rw [run_concat]
    exact recalls_serve_iff hencodes (hfits q (by simp)) hx hrecalls
  constructor
  · intro h pre ts hpre
    have hbefore := h pre ((List.prefix_append ..).trans hpre)
    exact (hnext pre _ hpre hbefore).1 (h _ hpre) ts rfl
  · intro h pre hpre
    induction pre using List.reverseRecOn with
    | nil => exact recalls_of_empty htree hmax
    | append_singleton pre q ih =>
      refine (hnext pre q hpre (ih ((List.prefix_append ..).trans hpre))).2 ?_
      rintro ts rfl
      exact h pre ts hpre

/-- The version that ended with the greatest timestamp is pruned after another began with it. -/
theorem recalls_iff_successive :
    let k : RecordKey := ⟨"t", .int 1⟩
    let first : Version := { key := k, number := 0, payload := some [7], beginTs := 2 }
    let second : Version := { key := k, number := 1, payload := none, beginTs := 10 }
    let qs : List Request := [.append first, .close k 10, .prune 9, .append second, .prune 10]
    Store.empty.tree = ∅ ∧ Store.empty.maxTs = 0 ∧ (∀ q ∈ qs, q.Fits) ∧ Store.empty.Granted qs ∧
      ((∀ pre, pre <+: qs → (Request.run serve Store.empty pre).2.Recalls) ↔
        ∀ pre ts, pre ++ [.prune ts] <+: qs → (Request.run serve Store.empty pre).2.Outlives ts) ∧
      (Request.run serve Store.empty qs).2.maxTs = 10 ∧
      chainIn (Request.run serve Store.empty qs).2.tree k = .ok [second] := by
  intro k first second qs
  have hk : k.Fits := ⟨by decide +kernel, trivial⟩
  have hfits : ∀ q ∈ qs, q.Fits := by
    simp only [qs, List.forall_mem_cons, Request.Fits]
    exact ⟨⟨hk, by decide⟩, hk, trivial, ⟨hk, by decide⟩, trivial, by simp⟩
  have hgranted : Store.empty.Granted qs := by decide +kernel
  exact ⟨rfl, rfl, hfits, hgranted, hgranted.recalls_iff rfl rfl hfits, by decide +kernel,
    by decide +kernel⟩

/-- A prune takes away the last version, and with it the timestamp that the store remembers: made
anew, it starts from the beginning. -/
theorem forgotten_after_prune :
    let k : RecordKey := ⟨"t", .int 1⟩
    let first : Version := { key := k, number := 0, payload := some [7], beginTs := 2 }
    let qs : List Request := [.append first, .close k 10, .prune 10]
    let s := (Request.run serve Store.empty qs).2
    Store.empty.tree = ∅ ∧ Store.empty.maxTs = 0 ∧ (∀ q ∈ qs, q.Fits) ∧ Store.empty.Granted qs ∧
      s.tree = ∅ ∧ s.maxTs = 10 ∧
      (recover (Medium.ofTree s.tree)).1.map (·.maxTs) = .ok 0 ∧ ¬ s.Recalls := by
  intro k first qs s
  have hk : k.Fits := ⟨by decide +kernel, trivial⟩
  have hfits : ∀ q ∈ qs, q.Fits := by
    simp only [qs, List.forall_mem_cons, Request.Fits]
    exact ⟨⟨hk, by decide⟩, hk, trivial, by simp⟩
  have hmax : s.maxTs = 10 := by decide +kernel
  have hmade : (recover (Medium.ofTree s.tree)).1.map (·.maxTs) = .ok 0 := by decide +kernel
  refine ⟨rfl, rfl, hfits, by decide +kernel, by decide +kernel, hmax, hmade, ?_⟩
  rintro ⟨s', hs', hsame, -⟩
  rw [hs'] at hmade
  have hzero : s'.maxTs = 0 := Except.ok.inj hmade
  rw [hmax, hzero] at hsame
  exact absurd hsame (by decide)

end Store

end Mvcc
