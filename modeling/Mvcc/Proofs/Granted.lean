import Mvcc.Proofs.Refinement
import Mvcc.Proofs.Steps

/-!
# Requests that are granted

What a request makes of the chain of a record once nothing refused it, and what is true of every
store that was brought about by such requests alone.

* `Request.puts`, `Request.Alters`: the versions a request adds, and the chain it leaves of another.
* `Catalog.alters_serve`: every granted request alters chains in one of these ways.
* `Store.Granted`, `Granted.exists_catalog`: what all granted requests keep is true of the store.
* `Request.times`, `Store.recorded_serve`, `maxTs_run_mem`: the timestamps that a store is told of,
  and what it remembers of them.
* `Catalog.Within`, `Granted.exists_within`: bounds for the numbers and begins in a store.
-/

namespace Mvcc

namespace Request

/-- The versions that a request adds. -/
def puts : Request → List Version
  | append v => [v]
  | install vs => vs
  | close .. | prune _ | visible .. | latest _ | chain _ => []

/-- What a granted request makes of the chain of a record. -/
inductive Alters (q : Request) (k : RecordKey) (l : Chain) : Chain → Prop
  | same (spared : ∀ v ∈ q.puts, v.key ≠ k) : Alters q k l l
  /-- A version is put after the last one, which has ended. -/
  | extended {v : Version} (put : v ∈ q.puts) (only : ∀ w ∈ q.puts, w.key = k → w = v)
    (key : v.key = k) (opened : v.endTs = none)
    (last : ∀ u ∈ l.getLast?, u.endTs ≠ none ∧ u.number < v.number) : Alters q k l (l ++ [v])
  /-- A version ends the open one before it. -/
  | succeeded {m : Chain} {u v : Version} (put : v ∈ q.puts)
    (only : ∀ w ∈ q.puts, w.key = k → w = v) (key : v.key = k) (opened : v.endTs = none)
    (chain : l = m ++ [u]) (last : u.endTs = none) (number : u.number < v.number)
    (later : u.beginTs < v.beginTs) : Alters q k l (m ++ [u.closedAt v.beginTs, v])
  /-- The open version is ended. -/
  | ended {m : Chain} {u : Version} {ts : Timestamp} (asked : q = .close k ts)
    (chain : l = m ++ [u]) (last : u.endTs = none) (later : u.beginTs < ts) :
    Alters q k l (m ++ [u.closedAt ts])
  | pruned {ts : Timestamp} (asked : q = .prune ts) :
    Alters q k l (l.filter fun v => !v.endedBy ts)

variable {q : Request} {k : RecordKey} {l l' : Chain} {v : Version}

theorem puts_fit (h : q.Fits) (hv : v ∈ q.puts) : v.Fits := by
  cases q with
  | append w => exact List.mem_singleton.1 hv ▸ h
  | install vs => exact h v hv
  | close | prune | visible | latest | chain => cases hv

theorem alters_appended (put : v ∈ q.puts) (only : ∀ w ∈ q.puts, w.key = k → w = v)
    (key : v.key = k) (h : l.appended v = .ok l') : q.Alters k l l' := by
  unfold Chain.appended at h
  split_ifs at h with hopen
  have opened := v.isOpen_iff.1 hopen
  cases hl : l.getLast? with
  | none =>
    rw [hl] at h
    cases h
    rw [List.getLast?_eq_none_iff.1 hl]
    exact .extended put only key opened (by simp)
  | some u =>
    rw [hl] at h
    simp only at h
    split_ifs at h with hu hle
    cases h
    refine .extended put only key opened fun w hw => ?_
    rw [hl] at hw
    cases hw
    exact ⟨fun he => hu (u.isOpen_iff.2 he), UInt64.not_le.1 hle⟩

theorem alters_followed (put : v ∈ q.puts) (only : ∀ w ∈ q.puts, w.key = k → w = v)
    (key : v.key = k) (opened : v.endTs = none) (h : l.followed v = .ok l') : q.Alters k l l' := by
  unfold Chain.followed at h
  cases hl : l.getLast? with
  | none =>
    rw [hl] at h
    cases h
    rw [List.getLast?_eq_none_iff.1 hl]
    exact .extended put only key opened (by simp)
  | some u =>
    rw [hl] at h
    simp only at h
    split_ifs at h with hle hu hbegin
    · cases h
      obtain ⟨m, rfl⟩ := List.getLast?_eq_some_iff.1 hl
      rw [List.dropLast_concat]
      exact .succeeded put only key opened rfl (u.isOpen_iff.1 hu) (UInt64.not_le.1 hle)
        (UInt64.not_le.1 hbegin)
    · cases h
      refine .extended put only key opened fun w hw => ?_
      rw [hl] at hw
      cases hw
      exact ⟨fun he => hu (u.isOpen_iff.2 he), UInt64.not_le.1 hle⟩

theorem alters_closed {ts : Timestamp} (h : l.closed k ts = .ok l') :
    (close k ts).Alters k l l' := by
  unfold Chain.closed at h
  cases hl : l.getLast? with
  | none =>
    rw [hl] at h
    cases h
  | some u =>
    rw [hl] at h
    simp only at h
    split_ifs at h with hu hle
    cases h
    obtain ⟨m, rfl⟩ := List.getLast?_eq_some_iff.1 hl
    rw [List.dropLast_concat]
    exact .ended rfl rfl (u.isOpen_iff.1 hu) (UInt64.not_le.1 hle)

end Request

namespace Catalog

variable {c c' : Catalog} {k : RecordKey} {q : Request} {x : Response}

theorem install_cases {seen : List RecordKey} {vs : List Version} (h : c.install seen vs = .ok c') :
    (∀ v ∈ vs, v.key ∉ seen) ∧
      ((∀ v ∈ vs, v.key ≠ k) ∧ c'.chain k = c.chain k ∨
        ∃ v ∈ vs, v.key = k ∧ v.endTs = none ∧ (∀ w ∈ vs, w.key = k → w = v) ∧
          (c.chain k).followed v = .ok (c'.chain k)) := by
  induction vs generalizing c seen with
  | nil =>
    cases h
    exact ⟨by simp, Or.inl ⟨by simp, rfl⟩⟩
  | cons v rest ih =>
    unfold install at h
    split_ifs at h with hseen hopen
    cases hfollowed : (c.chain v.key).followed v with
    | error e =>
      rw [hfollowed] at h
      cases h
    | ok l =>
      rw [hfollowed] at h
      obtain ⟨hnot, hrest⟩ := ih h
      have hother : ∀ w ∈ rest, w.key ≠ v.key := fun w hw he => hnot w hw (he ▸ List.mem_cons_self)
      refine ⟨?_, ?_⟩
      · intro w hw
        rcases List.mem_cons.1 hw with rfl | hw
        · exact hseen
        · exact fun hmem => hnot w hw (List.mem_cons_of_mem _ hmem)
      by_cases hk : v.key = k
      · -- no later version names the record again
        rcases hrest with ⟨-, hsame⟩ | ⟨w, hw, hwk, -⟩
        · refine Or.inr ⟨v, List.mem_cons_self, hk, v.isOpen_iff.1 hopen, fun w hw hwk => ?_, ?_⟩
          · rcases List.mem_cons.1 hw with rfl | hw
            · rfl
            · exact absurd (hwk.trans hk.symm) (hother w hw)
          · rw [hsame, chain_put, if_pos hk.symm, ← hk]
            exact hfollowed
        · exact absurd (hwk.trans hk.symm) (hother w hw)
      · rw [chain_put, if_neg (Ne.symm hk)] at hrest
        rcases hrest with ⟨hnone, hsame⟩ | ⟨w, hw, hwk, hwopen, honly, hfollowed'⟩
        · refine Or.inl ⟨fun w hw => ?_, hsame⟩
          rcases List.mem_cons.1 hw with rfl | hw
          · exact hk
          · exact hnone w hw
        · refine Or.inr ⟨w, List.mem_cons_of_mem _ hw, hwk, hwopen, fun x hx hxk => ?_, hfollowed'⟩
          rcases List.mem_cons.1 hx with rfl | hx
          · exact absurd hxk hk
          · exact honly x hx hxk

theorem exists_of_changed {k' : RecordKey} {y : Except Refusal Chain}
    (h : c.changed (y.map (c.put k')) = (.ok x, c')) : ∃ l, y = .ok l ∧ c' = c.put k' l := by
  cases y with
  | error e => cases h
  | ok l =>
    cases h
    exact ⟨l, rfl, rfl⟩

theorem alters_serve (h : c.serve q = (.ok x, c')) (k : RecordKey) :
    q.Alters k (c.chain k) (c'.chain k) := by
  cases q with
  | append v =>
    obtain ⟨l, hl, rfl⟩ := exists_of_changed h
    rw [chain_put]
    split_ifs with hk
    · rw [hk]
      exact Request.alters_appended List.mem_cons_self
        (fun w hw _ => List.mem_singleton.1 hw) rfl hl
    · exact .same fun w hw he => hk (List.mem_singleton.1 hw ▸ he.symm)
  | close k' ts =>
    obtain ⟨l, hl, rfl⟩ := exists_of_changed h
    rw [chain_put]
    split_ifs with hk
    · rw [hk]
      exact Request.alters_closed hl
    · exact .same (by simp [Request.puts])
  | install vs =>
    rw [serve] at h
    cases hinstall : c.install [] vs with
    | error e =>
      rw [hinstall] at h
      cases h
    | ok c₁ =>
      rw [hinstall] at h
      cases h
      rcases (install_cases (k := k) hinstall).2 with ⟨hnone, hsame⟩ | ⟨v, hv, hk, hopen, honly, hl⟩
      · rw [hsame]
        exact .same hnone
      · exact Request.alters_followed hv honly hk hopen hl
  | prune ts =>
    cases h
    rw [chain_prune]
    exact .pruned rfl
  | visible | latest | chain =>
    cases h
    exact .same (by simp [Request.puts])

end Catalog

namespace Store

variable {s s' : Store}

/-- Every request was granted. -/
def Granted (s : Store) (qs : List Request) : Prop :=
  ∀ r ∈ (Request.run serve s qs).1, ∃ x, r = .ok x

instance {qs : List Request} : Decidable (s.Granted qs) :=
  decidable_of_iff (∀ r ∈ (Request.run serve s qs).1, r.isOk = true)
    (forall₂_congr fun r _ => by cases r <;> simp [Except.isOk, Except.toBool])

theorem run_concat (s : Store) (qs : List Request) (q : Request) :
    Request.run serve s (qs ++ [q]) =
      ((Request.run serve s qs).1 ++ [((Request.run serve s qs).2.serve q).1],
        ((Request.run serve s qs).2.serve q).2) := by
  induction qs generalizing s with
  | nil => rfl
  | cons q' rest ih =>
    have hrest := ih (s.serve q').2
    simp only [List.cons_append, Request.run, hrest]

theorem granted_concat {qs : List Request} {q : Request} (h : s.Granted (qs ++ [q])) :
    s.Granted qs ∧ ∃ x, ((Request.run serve s qs).2.serve q).1 = .ok x := by
  unfold Granted at h
  rw [run_concat] at h
  exact ⟨fun r hr => h r (List.mem_append_left _ hr), h _ (by simp)⟩

theorem Follows.exists_of_ok {c : Catalog} {q : Request} {x : Response}
    (h : s.Follows (c.serve q) (s.serve q)) (hx : (s.serve q).1 = .ok x) :
    ∃ y c', c.serve q = (.ok y, c') ∧ (s.serve q).2.tree.Encodes c'.chain := by
  rcases h.result with ⟨hreply, hencodes⟩ | ⟨⟨e, he⟩, -⟩
  · rw [hx] at hreply
    rcases hserve : c.serve q with ⟨_ | y, c'⟩
    all_goals rw [hserve] at hreply hencodes
    · cases hreply
    · exact ⟨y, c', rfl, hencodes⟩
  · rw [hx] at he
    cases he

/-- What is true of a store without versions, and kept by every granted request, is true of the
store. -/
theorem Granted.exists_catalog (htree : s.tree = ∅) {qs : List Request}
    (fits : ∀ q ∈ qs, q.Fits) (granted : s.Granted qs) {P : Store → Catalog → Prop}
    (hempty : P s ∅)
    (hnext : ∀ s c q x y c', q ∈ qs → (s.serve q).1 = .ok x → c.serve q = (.ok y, c') → P s c →
      P (s.serve q).2 c') :
    ∃ c : Catalog, (Request.run serve s qs).2.tree.Encodes c.chain ∧
      P (Request.run serve s qs).2 c := by
  induction qs using List.reverseRecOn with
  | nil =>
    exact ⟨∅, Tree.encodes_chain_empty htree, hempty⟩
  | append_singleton qs q ih =>
    obtain ⟨hgranted, x, hx⟩ := granted_concat granted
    obtain ⟨c, hencodes, hc⟩ := ih (fun q' hq' => fits q' (List.mem_append_left _ hq')) hgranted
      fun s c q' x y c' hq' => hnext s c q' x y c' (List.mem_append_left _ hq')
    obtain ⟨y, c', hserve, hencodes'⟩ :=
      (follows_serve hencodes (fits q (by simp))).exists_of_ok hx
    refine ⟨c', ?_, ?_⟩
    · rw [run_concat]
      exact hencodes'
    · rw [run_concat]
      exact hnext _ c q x y c' (by simp) hx hserve hc

end Store

/-! ## What a store remembers -/

namespace Request

/-- The timestamps that come with a request and are remembered. -/
def times : Request → List Timestamp
  | append v => [v.beginTs]
  | close _ ts => [ts]
  | install vs => vs.map (·.beginTs)
  | prune _ | visible .. | latest _ | chain _ => []

theorem begin_mem_times {q : Request} {v : Version} (hv : v ∈ q.puts) : v.beginTs ∈ q.times := by
  cases q with
  | append w => exact List.mem_singleton.2 (congrArg _ (List.mem_singleton.1 hv))
  | install vs => exact List.mem_map_of_mem hv
  | close | prune | visible | latest | chain => cases hv

end Request

namespace Store

variable {s s₁ : Store}

open Request (answered)

/-- Timestamps are remembered if the answer says that the request was granted, and only then. -/
def Recorded (s : Store) (times : List Timestamp) (y : Except StoreError Response × Store) : Prop :=
  (∃ x, y.1 = .ok x) ∧ y.2.maxTs = times.foldl max s.maxTs ∨
    (∃ e, y.1 = .error e) ∧ y.2.maxTs = s.maxTs

theorem recorded_error (hread : s.Unmoved s₁) (times : List Timestamp) (e : StoreError) :
    s.Recorded times (.error e, s₁) :=
  Or.inr ⟨⟨e, rfl⟩, hread.maxTs_eq⟩

theorem recorded_reading {α : Type} (s : Store) (p : Probe α) (answer : α → Response) :
    s.Recorded [] (answered answer (s.reading p)) := by
  unfold answered
  cases hr : (s.reading p).1 with
  | error e => exact recorded_error (s.unmoved_reading p) [] e
  | ok a => exact Or.inl ⟨⟨answer a, rfl⟩, rfl⟩

theorem recorded_save (hread : s.Unmoved s₁) (call : Call) (f : Tree → Tree) (ts : Timestamp) :
    s.Recorded [ts] (answered (fun () => .done) (s₁.save (·.change call f) ts)) := by
  rcases s₁.save_change call f ts with ⟨hok, -, hmax⟩ | ⟨⟨e, he⟩, hkept⟩
  · refine Or.inl ⟨⟨.done, by rw [answered, hok]; rfl⟩, ?_⟩
    exact hmax.trans (by rw [hread.maxTs_eq]; rfl)
  · exact Or.inr ⟨⟨e, by rw [answered, he]; rfl⟩, (hread.trans hkept).maxTs_eq⟩

theorem recorded_serve (s : Store) (q : Request) : s.Recorded q.times (s.serve q) := by
  cases q with
  | append v =>
    have hread := s.unmoved_reading (Probe.checkAppend v)
    rw [serve, append]
    rcases hr : s.reading (Probe.checkAppend v) with ⟨_ | _, s₁⟩
    all_goals rw [hr] at hread
    · exact recorded_error hread _ _
    · exact recorded_save hread .insert (·.insert _ _) v.beginTs
  | close k ts =>
    have hread := s.unmoved_reading (do Probe.ofRule (Chain.closing (← Probe.latest? k) k ts))
    rw [serve, close]
    rcases hr : s.reading (do Probe.ofRule (Chain.closing (← Probe.latest? k) k ts)) with ⟨_ | v, s₁⟩
    all_goals rw [hr] at hread
    · exact recorded_error hread _ _
    · exact recorded_save hread .insert (·.insert _ _) ts
  | install vs =>
    have hread := s.unmoved_reading (Probe.installation [] vs)
    have hedits : ∀ edits, (s.reading (Probe.installation [] vs)).1 = .ok edits →
        vs ≠ [] → edits ≠ [] :=
      fun edits he => Probe.yields_installation [] vs _ _ edits he
    rw [serve, install]
    rcases hr : s.reading (Probe.installation [] vs) with ⟨_ | _ | ⟨edit, edits⟩, s₁⟩
    all_goals rw [hr] at hread hedits
    · exact recorded_error hread _ _
    · have hnil : vs = [] := not_not.1 fun hne => hedits [] rfl hne rfl
      rw [hnil]
      exact Or.inl ⟨⟨.done, rfl⟩, hread.maxTs_eq⟩
    · have hsave := recorded_save hread .applyBatch (·.apply (edit :: edits))
        ((vs.map (·.beginTs)).foldl max 0)
      unfold Recorded at hsave ⊢
      rw [Request.times, Timestamp.foldl_max_eq _ s.maxTs]
      exact hsave
  | prune ts =>
    have hmax := maxTs_prune s ts
    rw [serve, answered]
    cases hr : (s.prune ts).1 with
    | error e => exact Or.inr ⟨⟨e, rfl⟩, hmax⟩
    | ok n => exact Or.inl ⟨⟨.pruned n, rfl⟩, hmax⟩
  | visible k ts => exact recorded_reading s _ _
  | latest k => exact recorded_reading s _ _
  | chain k => exact recorded_reading s _ _

theorem maxTs_of_ok {q : Request} {x : Response} (h : (s.serve q).1 = .ok x) :
    (s.serve q).2.maxTs = q.times.foldl max s.maxTs := by
  rcases s.recorded_serve q with ⟨-, hmax⟩ | ⟨⟨e, he⟩, -⟩
  · exact hmax
  · rw [h] at he
    cases he

/-- A request is heeded: the store remembers one of its timestamps, which no version that it adds
begins after. -/
def Heeds (s s' : Store) (q : Request) : Prop :=
  ∃ ts ∈ q.times, s'.maxTs = max s.maxTs ts ∧ ∀ v ∈ q.puts, v.beginTs ≤ ts

theorem heeds_serve (s : Store) (q : Request) :
    s.Heeds (s.serve q).2 q ∨
      ((∃ e, (s.serve q).1 = .error e) ∨ q.puts = []) ∧ (s.serve q).2.maxTs = s.maxTs := by
  rcases s.recorded_serve q with ⟨-, hmax⟩ | ⟨he, hmax⟩
  · by_cases htimes : q.times = []
    · refine Or.inr ⟨Or.inr (List.eq_nil_iff_forall_not_mem.2 fun v hv => ?_), ?_⟩
      · have hmem := Request.begin_mem_times hv
        rw [htimes] at hmem
        cases hmem
      · rw [hmax, htimes]
        rfl
    · refine Or.inl ⟨_, Timestamp.foldl_max_mem htimes, ?_, fun v hv => ?_⟩
      · rw [hmax, Timestamp.foldl_max_eq]
      · exact Timestamp.le_foldl_max (Request.begin_mem_times hv) 0
  · exact Or.inr ⟨Or.inl he, hmax⟩

theorem maxTs_run_mem (s : Store) (qs : List Request) :
    (Request.run serve s qs).2.maxTs ∈ s.maxTs :: qs.flatMap Request.times := by
  induction qs generalizing s with
  | nil => exact List.mem_cons_self
  | cons q rest ih =>
    have hstep : (s.serve q).2.maxTs ∈ s.maxTs :: q.times := by
      rcases s.heeds_serve q with ⟨ts, hts, hmax, -⟩ | ⟨-, hmax⟩
      · rw [hmax]
        rcases Timestamp.max_cases s.maxTs ts with he | he
        · rw [he]
          exact List.mem_cons_self
        · rw [he]
          exact List.mem_cons_of_mem _ hts
      · rw [hmax]
        exact List.mem_cons_self
    have hrest := ih (s.serve q).2
    have hrun : (Request.run serve s (q :: rest)).2 = (Request.run serve (s.serve q).2 rest).2 := rfl
    rw [hrun, List.flatMap_cons]
    rcases List.mem_cons.1 hrest with he | hrest
    · rw [he]
      exact List.cons_subset_cons _ (List.subset_append_left ..) hstep
    · exact List.mem_cons_of_mem _ (List.mem_append_right _ hrest)

end Store

/-! ## Bounds for numbers and begins -/

theorem Request.Alters.of_mem {q : Request} {k : RecordKey} {l l' : Chain} {v : Version}
    (h : q.Alters k l l') (hv : v ∈ l') :
    (∃ u ∈ l, v.number = u.number ∧ v.beginTs = u.beginTs) ∨ v ∈ q.puts := by
  cases h with
  | same => exact Or.inl ⟨v, hv, rfl, rfl⟩
  | extended put =>
    rcases List.mem_append.1 hv with hv | hv
    · exact Or.inl ⟨v, hv, rfl, rfl⟩
    · exact Or.inr (List.mem_singleton.1 hv ▸ put)
  | @succeeded m u w put _ _ _ chain =>
    subst chain
    rcases List.mem_append.1 hv with hv | hv
    · exact Or.inl ⟨v, List.mem_append_left _ hv, rfl, rfl⟩
    · rcases List.mem_cons.1 hv with rfl | hv
      · exact Or.inl ⟨u, by simp, rfl, rfl⟩
      · exact Or.inr (List.mem_singleton.1 hv ▸ put)
  | @ended m u ts _ chain =>
    subst chain
    rcases List.mem_append.1 hv with hv | hv
    · exact Or.inl ⟨v, List.mem_append_left _ hv, rfl, rfl⟩
    · rw [List.mem_singleton.1 hv]
      exact Or.inl ⟨u, by simp, rfl, rfl⟩
  | pruned => exact Or.inl ⟨v, (List.mem_filter.1 hv).1, rfl, rfl⟩

namespace Catalog

variable {c c' : Catalog} {n n' : Nat} {ts ts' : Timestamp}

/-- Numbers are below `n`, and nothing begins after `ts`. -/
def Within (c : Catalog) (n : Nat) (ts : Timestamp) : Prop :=
  ∀ k, ∀ v ∈ c.chain k, v.number.toNat < n ∧ v.beginTs ≤ ts

theorem Within.mono (h : c.Within n ts) (hn : n ≤ n') (hts : ts ≤ ts') : c.Within n' ts' :=
  fun k v hv => ⟨Nat.lt_of_lt_of_le (h k v hv).1 hn, UInt64.le_trans (h k v hv).2 hts⟩

theorem Within.serve (h : c.Within n ts) {q : Request} {x : Response}
    (hserve : c.serve q = (.ok x, c')) (hputs : ∀ v ∈ q.puts, v.number.toNat < n ∧ v.beginTs ≤ ts) :
    c'.Within n ts := by
  intro k v hv
  rcases (alters_serve hserve k).of_mem hv with ⟨u, hu, hnumber, hbegin⟩ | hput
  · rw [hnumber, hbegin]
    exact h k u hu
  · exact hputs v hput

end Catalog

/-- A store that was asked for nothing that it refused stays within the bounds of what was added. -/
theorem Store.Granted.exists_within {s : Store} {qs : List Request} (htree : s.tree = ∅)
    (fits : ∀ q ∈ qs, q.Fits) (granted : s.Granted qs) {n : Nat}
    (numbers : ∀ q ∈ qs, ∀ v ∈ q.puts, v.number.toNat < n) :
    ∃ c : Catalog, (Request.run Store.serve s qs).2.tree.Encodes c.chain ∧
      c.Within n (Request.run Store.serve s qs).2.maxTs := by
  refine granted.exists_catalog htree fits (P := fun s c => c.Within n s.maxTs) ?_ ?_
  · intro k v hv
    cases hv
  · intro s c q x y c' hq hx hserve hc
    rcases s.heeds_serve q with ⟨ts, -, hmax, hle⟩ | ⟨hidle, hmax⟩
    · rw [hmax]
      refine (hc.mono (Nat.le_refl n) (Timestamp.le_max_left _ ts)).serve hserve fun v hv => ?_
      exact ⟨numbers q hq v hv, UInt64.le_trans (hle v hv) (Timestamp.le_max_right _ _)⟩
    · have hputs : q.puts = [] := hidle.resolve_left fun ⟨e, he⟩ => by
        rw [hx] at he
        cases he
      rw [hmax]
      exact hc.serve hserve (by simp [hputs])

end Mvcc
