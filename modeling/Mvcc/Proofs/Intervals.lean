import Mvcc.Proofs.Granted

/-!
# Visibility intervals

The versions of a record are meant to be valid one after the other. An append asks whether the last
version has ended, and not when; an install asks when the last version began, and only if it is open.
So after a version was ended by hand the next one may begin before that end, and nothing refuses it.
Apart from that the intervals of a chain never meet.

* `Chain.Formed`: what every request keeps.
* `Chain.Apart`, `Chain.Sequential`, `Formed.apart_iff`: begins go up and no two versions are visible
  at once; every version begins when the one before has ended.
* `Formed.concat`, `Formed.close_last`, `Sequential.concat_iff`: one more version, and one more end.
* `Alters.formed`, `Alters.sequential_iff`: what one request keeps, and when it keeps the sequence.
* `Store.Apart`, `Store.Timely`: in a tree; a request adds its versions after the ends that it finds.
* `Granted.intervals_apart`: the intervals are apart for as long as requests are timely, and no
  longer.
-/

namespace Mvcc

open Store (chainIn)

namespace Chain

/-- Versions end after they begin, and only the last one is open. -/
structure Formed (c : Chain) : Prop where
  lasting : ∀ v ∈ c, ∀ e ∈ v.endTs, v.beginTs < e
  closed : c.Pairwise fun u _ => u.endTs ≠ none

/-- Every version begins when those before it have ended. -/
def Sequential (c : Chain) : Prop := c.Pairwise fun u v => ∀ e ∈ u.endTs, e ≤ v.beginTs

/-- Begins go up, and no two versions are visible at the same time. -/
structure Apart (c : Chain) : Prop where
  ascending : c.Pairwise fun u v => u.beginTs < v.beginTs
  disjoint : c.Pairwise fun u v => ∀ ts, u.visibleAt ts = true → v.visibleAt ts = false
  visible : ∀ ts, (c.filter (·.visibleAt ts)).length ≤ 1

variable {c : Chain} {u v : Version}

theorem formed_nil : Formed [] := ⟨by simp, List.Pairwise.nil⟩

theorem Formed.visibleAt_begin (h : c.Formed) (hv : v ∈ c) : v.visibleAt v.beginTs = true :=
  (v.visibleAt_iff _).2 ⟨UInt64.le_refl _, h.lasting v hv⟩

theorem Formed.exists_end (h : c.Formed) (hv : v ∈ c) (hne : v.endTs ≠ none) :
    ∃ e, v.endTs = some e ∧ v.beginTs < e := by
  obtain ⟨e, he⟩ := Option.ne_none_iff_exists'.1 hne
  exact ⟨e, he, h.lasting v hv e he⟩

theorem Sequential.visible (h : c.Sequential) (hf : c.Formed) (ts : Timestamp) :
    (c.filter (·.visibleAt ts)).length ≤ 1 := by
  have hpair : (c.filter (·.visibleAt ts)).Pairwise fun _ _ => False := by
    refine (List.Pairwise.filter _ (hf.closed.and h)).imp_of_mem fun {u v} hu hv huv => ?_
    obtain ⟨hu, huts⟩ := List.mem_filter.1 hu
    obtain ⟨-, hvts⟩ := List.mem_filter.1 hv
    obtain ⟨e, he, -⟩ := hf.exists_end hu huv.1
    have hbefore := ((u.visibleAt_iff ts).1 huts).2 e he
    have hafter := ((v.visibleAt_iff ts).1 hvts).1
    have hnext := huv.2 e he
    grind
  cases hl : c.filter (·.visibleAt ts) with
  | nil => simp
  | cons u l =>
    cases l with
    | nil => simp
    | cons v l =>
      rw [hl] at hpair
      exact ((List.pairwise_cons.1 hpair).1 v List.mem_cons_self).elim

theorem Formed.endTs_ne_none (h : c.Formed) (last : ∀ u ∈ c.getLast?, u.endTs ≠ none)
    (hv : v ∈ c) : v.endTs ≠ none := by
  rcases List.eq_nil_or_concat' c with rfl | ⟨m, u, rfl⟩
  · cases hv
  · rcases List.mem_append.1 hv with hv | hv
    · exact (List.pairwise_append.1 h.closed).2.2 v hv u (List.mem_singleton_self u)
    · rw [List.mem_singleton.1 hv]
      exact last u (List.getLast?_concat ..)

theorem Formed.concat (h : c.Formed) (last : ∀ u ∈ c.getLast?, u.endTs ≠ none)
    (opened : v.endTs = none) : (c ++ [v]).Formed where
  lasting w hw e he := by
    rcases List.mem_append.1 hw with hw | hw
    · exact h.lasting w hw e he
    · rw [List.mem_singleton.1 hw, opened] at he
      cases he
  closed := List.pairwise_append.2
    ⟨h.closed, List.pairwise_singleton _ _, fun _ hw _ _ => h.endTs_ne_none last hw⟩

theorem Formed.close_last {m : Chain} {ts : Timestamp} (h : (m ++ [u]).Formed)
    (later : u.beginTs < ts) : (m ++ [u.closedAt ts]).Formed where
  lasting w hw e he := by
    rcases List.mem_append.1 hw with hw | hw
    · exact h.lasting w (List.mem_append_left _ hw) e he
    · rw [List.mem_singleton.1 hw] at he ⊢
      cases he
      exact later
  closed := by
    obtain ⟨hm, -, hmu⟩ := List.pairwise_append.1 h.closed
    exact List.pairwise_append.2 ⟨hm, List.pairwise_singleton _ _, fun w hw _ _ =>
      hmu w hw u (List.mem_singleton_self u)⟩

theorem Sequential.concat_iff (h : c.Sequential) (hf : c.Formed)
    (last : ∀ u ∈ c.getLast?, u.endTs ≠ none) :
    Sequential (c ++ [v]) ↔ ∀ u ∈ c.getLast?, ∀ e ∈ u.endTs, e ≤ v.beginTs := by
  constructor
  · intro h u hu
    exact (List.pairwise_append.1 h).2.2 u (List.mem_of_getLast? hu) v (List.mem_singleton_self v)
  · intro hnext
    refine List.pairwise_append.2 ⟨h, List.pairwise_singleton _ _, fun w hw x hx e he => ?_⟩
    rw [List.mem_singleton.1 hx]
    rcases List.eq_nil_or_concat' c with rfl | ⟨m, u, rfl⟩
    · cases hw
    · have hu : u ∈ (m ++ [u]).getLast? := List.getLast?_concat ..
      rcases List.mem_append.1 hw with hw | hw
      · obtain ⟨e', he', hlt⟩ := hf.exists_end (List.mem_of_getLast? hu) (last u hu)
        have hwu := (List.pairwise_append.1 h).2.2 w hw u (List.mem_singleton_self u) e he
        exact UInt64.le_trans hwu (UInt64.le_trans (UInt64.le_of_lt hlt) (hnext u hu e' he'))
      · rw [List.mem_singleton.1 hw] at he
        exact hnext u hu e he

theorem Sequential.close_last {m : Chain} (h : Sequential (m ++ [u])) (ts : Timestamp) :
    Sequential (m ++ [u.closedAt ts]) := by
  obtain ⟨hm, -, hmu⟩ := List.pairwise_append.1 h
  refine List.pairwise_append.2 ⟨hm, List.pairwise_singleton _ _, fun w hw x hx => ?_⟩
  rw [List.mem_singleton.1 hx]
  exact hmu w hw u (List.mem_singleton_self u)

/-- In a chain as requests leave them, intervals are apart if each begins when the ones before have
ended, and only then. -/
theorem Formed.apart_iff (hf : c.Formed) : c.Apart ↔ c.Sequential := by
  constructor
  · intro h
    refine (h.ascending.and h.disjoint).imp_of_mem fun {u v} hu hv huv e he => ?_
    -- else both are visible when the later one begins
    rw [← UInt64.not_lt]
    intro hlt
    have hvis : u.visibleAt v.beginTs = true := by
      refine (u.visibleAt_iff _).2 ⟨UInt64.le_of_lt huv.1, fun e' he' => ?_⟩
      cases he.symm.trans he'
      exact hlt
    have hnot := huv.2 v.beginTs hvis
    rw [hf.visibleAt_begin hv] at hnot
    cases hnot
  · intro h
    refine ⟨?_, ?_, h.visible hf⟩
    · refine (hf.closed.and h).imp_of_mem fun {u v} hu _ huv => ?_
      obtain ⟨e, he, hlt⟩ := hf.exists_end hu huv.1
      have hnext := huv.2 e he
      grind
    · refine (hf.closed.and h).imp_of_mem fun {u v} hu _ huv ts hts => ?_
      obtain ⟨e, he, -⟩ := hf.exists_end hu huv.1
      have hbefore := ((u.visibleAt_iff ts).1 hts).2 e he
      have hnext := huv.2 e he
      rw [Bool.eq_false_iff]
      intro hvts
      have hafter := ((v.visibleAt_iff ts).1 hvts).1
      grind

end Chain

namespace Request

variable {q : Request} {k : RecordKey} {l l' : Chain} {v : Version}

theorem Alters.formed (h : q.Alters k l l') (hl : l.Formed) : l'.Formed := by
  cases h with
  | same => exact hl
  | extended put only key opened last => exact hl.concat (fun u hu => (last u hu).1) opened
  | @succeeded m u v put only key opened chain last number later =>
    subst chain
    rw [List.append_cons]
    refine (hl.close_last later).concat (fun w hw => ?_) opened
    rw [List.getLast?_concat] at hw
    cases hw
    exact Option.some_ne_none _
  | ended asked chain last later =>
    subst chain
    exact hl.close_last later
  | pruned asked =>
    exact ⟨fun w hw => hl.lasting w (List.mem_filter.1 hw).1, hl.closed.filter _⟩

theorem Alters.sequential_iff (h : q.Alters k l l') (hl : l.Formed) (hs : l.Sequential) :
    l'.Sequential ↔
      ∀ v ∈ q.puts, v.key = k → ∀ u ∈ l.getLast?, ∀ e ∈ u.endTs, e ≤ v.beginTs := by
  cases h with
  | same spared => exact ⟨fun _ v hv hk => absurd hk (spared v hv), fun _ => hs⟩
  | @extended v put only key opened last =>
    rw [hs.concat_iff hl fun u hu => (last u hu).1]
    constructor
    · intro h w hw hk
      rw [only w hw hk]
      exact h
    · intro h
      exact h v put key
  | @succeeded m u v put only key opened chain last number later =>
    subst chain
    constructor
    · intro _ w hw hk x hx e he
      rw [List.getLast?_concat] at hx
      cases hx
      rw [last] at he
      cases he
    · intro _
      rw [List.append_cons, (hs.close_last v.beginTs).concat_iff (hl.close_last later)]
      all_goals
        intro x hx
        rw [List.getLast?_concat] at hx
        cases hx
      · intro e he
        cases he
        exact UInt64.le_refl _
      · exact Option.some_ne_none _
  | ended asked chain last later =>
    subst asked chain
    exact ⟨fun _ => by simp [puts], fun _ => hs.close_last _⟩
  | pruned asked =>
    subst asked
    exact ⟨fun _ => by simp [puts], fun _ => hs.filter _⟩

end Request

namespace Store

variable {s : Store} {t : Tree} {a : Chains} {q : Request} {qs : List Request}

/-- The intervals of every record in a tree are apart. -/
def Apart (t : Tree) : Prop := ∀ k : RecordKey, k.Fits → ∃ c, chainIn t k = .ok c ∧ c.Apart

/-- What a request adds begins when the last version in the tree has ended, if it has. -/
def Timely (t : Tree) (q : Request) : Prop :=
  ∀ v ∈ q.puts, ∃ c, chainIn t v.key = .ok c ∧ ∀ u ∈ c.getLast?, ∀ e ∈ u.endTs, e ≤ v.beginTs

theorem apart_iff_chains (h : t.Encodes a) : Apart t ↔ ∀ k, k.Fits → (a k).Apart :=
  forall₂_congr fun k hk => by simp [chainIn_eq h hk]

theorem timely_iff_chains (h : t.Encodes a) (hq : q.Fits) :
    Timely t q ↔ ∀ v ∈ q.puts, ∀ u ∈ (a v.key).getLast?, ∀ e ∈ u.endTs, e ≤ v.beginTs :=
  forall₂_congr fun v hv => by simp [chainIn_eq h (Request.puts_fit hq hv).1]

theorem apart_serve_iff {c : Catalog} (h : s.tree.Encodes c.chain)
    (hc : ∀ k, (c.chain k).Formed) (hq : q.Fits) {x : Response} (hx : (s.serve q).1 = .ok x)
    (apart : Apart s.tree) : Apart (s.serve q).2.tree ↔ Timely s.tree q := by
  obtain ⟨y, c', hserve, hencodes⟩ := (follows_serve h hq).exists_of_ok hx
  have halters := Catalog.alters_serve hserve
  rw [apart_iff_chains hencodes, timely_iff_chains h hq]
  have hchain : ∀ k, k.Fits → ((c'.chain k).Apart ↔
      ∀ v ∈ q.puts, v.key = k → ∀ u ∈ (c.chain k).getLast?, ∀ e ∈ u.endTs, e ≤ v.beginTs) := by
    intro k hk
    have hseq := (hc k).apart_iff.1 ((apart_iff_chains h).1 apart k hk)
    rw [((halters k).formed (hc k)).apart_iff, (halters k).sequential_iff (hc k) hseq]
  rw [forall₂_congr hchain]
  constructor
  · intro hall v hv
    exact hall v.key (Request.puts_fit hq hv).1 v hv rfl
  · rintro hall k - v hv rfl
    exact hall v hv

/-- After requests that were all granted, on a store that had no versions: the intervals of every
record have been apart all along if every version was added after the end that it found, and only
then. -/
theorem Granted.intervals_apart (htree : s.tree = ∅) (fits : ∀ q ∈ qs, q.Fits)
    (granted : s.Granted qs) :
    (∀ pre, pre <+: qs → Apart (Request.run serve s pre).2.tree) ↔
      ∀ pre q, pre ++ [q] <+: qs → Timely (Request.run serve s pre).2.tree q := by
  induction qs using List.reverseRecOn with
  | nil =>
    have hempty : Apart s.tree := by
      rw [htree, apart_iff_chains Tree.encodes_empty]
      exact fun _ _ => Chain.formed_nil.apart_iff.2 List.Pairwise.nil
    simpa [Request.run] using hempty
  | append_singleton qs q ih =>
    have hfits : ∀ q' ∈ qs, q'.Fits := fun q' hq' => fits q' (List.mem_append_left _ hq')
    obtain ⟨hgranted, x, hx⟩ := granted_concat granted
    obtain ⟨c, hencodes, hc⟩ := hgranted.exists_catalog htree hfits
      (P := fun _ c => ∀ k, (c.chain k).Formed) (fun _ => Chain.formed_nil)
      fun _ _ _ _ _ _ _ _ hserve hc k => (Catalog.alters_serve hserve k).formed (hc k)
    have hnext := apart_serve_iff hencodes hc (fits q (by simp)) hx
    have hlast : (Request.run serve s (qs ++ [q])).2 = ((Request.run serve s qs).2.serve q).2 := by
      rw [run_concat]
    constructor
    · intro h pre q' hpre
      have hall : ∀ pre, pre <+: qs → Apart (Request.run serve s pre).2.tree :=
        fun pre hpre => h pre (hpre.trans (List.prefix_append ..))
      rcases List.prefix_concat_iff.1 hpre with heq | hpre
      · obtain ⟨rfl, hq⟩ := List.append_inj' heq rfl
        cases hq
        exact (hnext (hall _ List.prefix_rfl)).1 (hlast ▸ h _ List.prefix_rfl)
      · exact (ih hfits hgranted).1 hall pre q' hpre
    · intro h pre hpre
      have hall := (ih hfits hgranted).2 fun pre q' hpre =>
        h pre q' (hpre.trans (List.prefix_append ..))
      rcases List.prefix_concat_iff.1 hpre with rfl | hpre
      · rw [hlast]
        exact (hnext (hall _ List.prefix_rfl)).2 (h qs q List.prefix_rfl)
      · exact hall pre hpre

/-- One version begins where the one before was ended, and another ends it. -/
theorem intervals_apart_successive :
    let k : RecordKey := ⟨"t", .int 1⟩
    let first : Version := { key := k, number := 0, payload := some [7], beginTs := 2 }
    let second : Version := { key := k, number := 1, payload := none, beginTs := 10 }
    let third : Version := { key := k, number := 5, payload := some [], beginTs := 11 }
    let qs : List Request := [.append first, .close k 10, .append second, .prune 9, .install [third]]
    Store.empty.tree = ∅ ∧ (∀ q ∈ qs, q.Fits) ∧ Store.empty.Granted qs ∧
      ((∀ pre, pre <+: qs → Apart (Request.run serve Store.empty pre).2.tree) ↔
        ∀ pre q, pre ++ [q] <+: qs → Timely (Request.run serve Store.empty pre).2.tree q) ∧
      chainIn (Request.run serve Store.empty qs).2.tree k =
        .ok [first.closedAt 10, second.closedAt 11, third] := by
  intro k first second third qs
  have hk : k.Fits := ⟨by decide +kernel, trivial⟩
  have hfits : ∀ q ∈ qs, q.Fits := by
    simp only [qs, List.forall_mem_cons, Request.Fits]
    exact ⟨⟨hk, by decide⟩, hk, ⟨hk, by decide⟩, trivial, ⟨⟨hk, by decide⟩, by simp⟩, by simp⟩
  have hgranted : Store.empty.Granted qs := by decide +kernel
  exact ⟨rfl, hfits, hgranted, hgranted.intervals_apart rfl hfits, by decide +kernel⟩

/-- Nothing refuses a version that begins before the end of the one before it, and from then to
that end both are visible. -/
theorem intervals_overlap :
    let k : RecordKey := ⟨"t", .int 1⟩
    let first : Version := { key := k, number := 0, payload := some [7], beginTs := 2 }
    let second : Version := { key := k, number := 1, payload := some [8], beginTs := 3 }
    let qs : List Request := [.append first, .close k 10, .append second]
    Store.empty.tree = ∅ ∧ (∀ q ∈ qs, q.Fits) ∧ Store.empty.Granted qs ∧
      chainIn (Request.run serve Store.empty qs).2.tree k = .ok [first.closedAt 10, second] ∧
      (first.closedAt 10).visibleAt 3 = true ∧ second.visibleAt 3 = true ∧
      ¬ Apart (Request.run serve Store.empty qs).2.tree := by
  intro k first second qs
  have hk : k.Fits := ⟨by decide +kernel, trivial⟩
  have hfits : ∀ q ∈ qs, q.Fits := by
    simp only [qs, List.forall_mem_cons, Request.Fits]
    exact ⟨⟨hk, by decide⟩, hk, ⟨hk, by decide⟩, by simp⟩
  have hchain : chainIn (Request.run serve Store.empty qs).2.tree k =
      .ok [first.closedAt 10, second] := by decide +kernel
  refine ⟨rfl, hfits, by decide +kernel, hchain, by decide, by decide, fun apart => ?_⟩
  obtain ⟨c, hc, happart⟩ := apart k hk
  cases hchain.symm.trans hc
  have hvisible := happart.visible 3
  simp [first, second, Version.closedAt, Version.visibleAt] at hvisible

end Store

end Mvcc
