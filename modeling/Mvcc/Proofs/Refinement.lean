import Mvcc.Proofs.Catalog

/-!
# Stores are catalogs

A store on a tree answers every request as a catalog does, for all that chains of different records
share one tree and are told apart by the beginnings of their places alone.

* `Chain.appended_eq`, `closed_eq`, `followed_eq`: a change of a chain puts versions in place.
* `Encodes.install_eq`: installs are judged and made one version after the other.
* `Store.Follows`, `follows_serve`: one request on a store and on a catalog.
* `Store.Refines`, `refines_catalog`: the result for any number of requests to an empty store.
-/

namespace Mvcc

/-! ## Changes of a chain as versions put in place -/

namespace Chain

variable {c : Chain} {u v : Version}

theorem lt_of_lt_last (hc : c.Pairwise fun u w => u.number < w.number) (hu : c.getLast? = some u)
    (hlt : u.number < v.number) : ∀ w ∈ c, w.number < v.number := by
  intro w hw
  obtain ⟨c, rfl⟩ := List.getLast?_eq_some_iff.1 hu
  rcases List.mem_append.1 hw with hw | hw
  · exact UInt64.lt_trans ((List.pairwise_append.1 hc).2.2 w hw u (List.mem_singleton_self u)) hlt
  · rw [List.mem_singleton.1 hw]
    exact hlt

theorem put_closedAt (hc : c.Pairwise fun u w => u.number < w.number) (hu : c.getLast? = some u)
    (ts : Timestamp) : Chain.put (u.closedAt ts) c = c.dropLast ++ [u.closedAt ts] := by
  obtain ⟨c, rfl⟩ := List.getLast?_eq_some_iff.1 hu
  rw [List.dropLast_concat]
  exact put_concat (fun w hw =>
    (List.pairwise_append.1 hc).2.2 w hw u (List.mem_singleton_self u)) rfl

theorem appended_eq (hc : c.Pairwise fun u w => u.number < w.number) (v : Version) :
    c.appended v =
      (if v.isOpen then checkAppend c.last? v else .error (.appendClosed v.key)).map
        fun () => Chain.put v c := by
  rw [appended, last?]
  cases v.isOpen with
  | false => rfl
  | true =>
    rw [if_pos rfl, if_pos rfl]
    cases hl : c.getLast? with
    | none =>
      rw [List.getLast?_eq_none_iff.1 hl]
      rfl
    | some u =>
      simp only [checkAppend]
      by_cases hopen : u.isOpen = true
      · rw [if_pos hopen, if_pos hopen]
        rfl
      · rw [if_neg hopen, if_neg hopen]
        by_cases hle : v.number ≤ u.number
        · rw [if_pos hle, if_pos hle]
          rfl
        · rw [if_neg hle, if_neg hle]
          have hput := put_of_lt v (lt_of_lt_last hc hl (UInt64.not_le.1 hle))
          rw [← hput]
          rfl

theorem closed_eq (hc : c.Pairwise fun u w => u.number < w.number) (k : RecordKey)
    (ts : Timestamp) :
    c.closed k ts = (closing c.latest? k ts).map fun w => Chain.put w c := by
  rw [closed, latest?, last?]
  cases hl : c.getLast? with
  | none => rfl
  | some u =>
    simp only [Option.filter_some]
    by_cases hopen : u.isOpen = true
    · rw [if_pos hopen, if_pos hopen, closing]
      by_cases hle : ts ≤ u.beginTs
      · rw [if_pos hle, if_pos hle]
        rfl
      · rw [if_neg hle, if_neg hle, ← put_closedAt hc hl]
        rfl
    · rw [if_neg hopen, if_neg hopen]
      rfl

theorem followed_eq (hc : c.Pairwise fun u w => u.number < w.number) (v : Version) :
    c.followed v = (succeed c.last? v).map fun ws => ws.foldl (fun c w => Chain.put w c) c := by
  rw [followed, last?]
  cases hl : c.getLast? with
  | none =>
    rw [List.getLast?_eq_none_iff.1 hl]
    rfl
  | some u =>
    simp only [succeed]
    by_cases hle : v.number ≤ u.number
    · rw [if_pos hle, if_pos hle]
      rfl
    · rw [if_neg hle, if_neg hle]
      have hlt := lt_of_lt_last hc hl (UInt64.not_le.1 hle)
      cases u.isOpen with
      | false =>
        rw [← put_of_lt v hlt]
        rfl
      | true =>
        simp only [if_true, Bool.not_true, Bool.false_eq_true, if_false]
        by_cases hbegin : v.beginTs ≤ u.beginTs
        · rw [if_pos hbegin, if_pos hbegin]
          rfl
        · rw [if_neg hbegin, if_neg hbegin]
          have hnext : ∀ w ∈ c.dropLast ++ [u.closedAt v.beginTs], w.number < v.number := by
            intro w hw
            rcases List.mem_append.1 hw with hw | hw
            · exact hlt w (List.dropLast_subset c hw)
            · rw [List.mem_singleton.1 hw]
              exact UInt64.not_le.1 hle
          show Except.ok _ = Except.ok (Chain.put v (Chain.put (u.closedAt v.beginTs) c))
          rw [put_closedAt hc hl, put_of_lt v hnext, List.append_assoc]
          rfl

theorem mem_of_closing {k : RecordKey} {ts : Timestamp} {w : Version}
    (h : closing c.latest? k ts = .ok w) : ∃ u ∈ c, w = u.closedAt ts := by
  cases hl : c.latest? with
  | none =>
    rw [hl] at h
    cases h
  | some u =>
    rw [hl, closing] at h
    split_ifs at h
    cases h
    exact ⟨u, List.mem_of_getLast? (Option.filter_eq_some_iff.1 hl).1, rfl⟩

theorem mem_of_succeed {last : Option Version} {ws : List Version} (h : succeed last v = .ok ws)
    {w : Version} (hw : w ∈ ws) : w = v ∨ ∃ u ∈ last, w = u.closedAt v.beginTs := by
  cases last with
  | none =>
    cases h
    exact Or.inl (List.mem_singleton.1 hw)
  | some u =>
    rw [succeed] at h
    split_ifs at h
    · cases h
      exact Or.inl (List.mem_singleton.1 hw)
    · cases h
      rcases List.mem_cons.1 hw with rfl | hw
      · exact Or.inr ⟨u, rfl, rfl⟩
      · exact Or.inl (List.mem_singleton.1 hw)

end Chain

/-! ## Changes of a catalog -/

namespace Catalog

theorem chain_put_foldl (c : Catalog) {k : RecordKey} {ws : List Version} (h : ∀ w ∈ ws, w.key = k) :
    (c.put k (ws.foldl (fun l w => Chain.put w l) (c.chain k))).chain =
      ws.foldl Chains.put c.chain := by
  funext k'
  rw [chain_put, Chains.foldl_put_apply]
  split_ifs with hk
  · rw [List.filter_eq_self.2 fun w hw => by simpa [hk] using h w hw, hk]
  · rw [List.filter_eq_nil_iff.2 fun w hw => by simpa [h w hw] using Ne.symm hk]
    rfl

theorem chain_put_stored (c : Catalog) (v : Version) :
    (c.put v.key (Chain.put v (c.chain v.key))).chain = Chains.put c.chain v :=
  @chain_put_foldl c v.key [v] fun w hw => by rw [List.mem_singleton.1 hw]

end Catalog

namespace Tree

variable {t : Tree} {c : Catalog}

theorem encodes_chain_empty (h : t = ∅) : t.Encodes (Catalog.chain ∅) := by
  rw [h, Catalog.chain_empty]
  exact encodes_empty

theorem Encodes.answers_checkAppend (h : t.Encodes c.chain) {v : Version} (hv : v.Fits) :
    (Probe.checkAppend v).Answers t
      ((if v.isOpen then Chain.checkAppend (c.chain v.key).last? v
        else .error (.appendClosed v.key)).mapError .refused) := by
  rw [Probe.checkAppend]
  split_ifs
  · exact (h.answers_last? hv.1).bind (Probe.answers_ofRule _)
  · exact Probe.answers_throw _

theorem Encodes.answers_closing (h : t.Encodes c.chain) {k : RecordKey} (hk : k.Fits)
    (ts : Timestamp) :
    Probe.Answers (do Probe.ofRule (Chain.closing (← Probe.latest? k) k ts)) t
      ((Chain.closing (c.chain k).latest? k ts).mapError .refused) :=
  (h.answers_latest? hk).bind (Probe.answers_ofRule _)

theorem Encodes.of_mem_succeed (h : t.Encodes c.chain) {v : Version} (hv : v.Fits)
    {ws : List Version} (hws : Chain.succeed (c.chain v.key).last? v = .ok ws) :
    ∀ w ∈ ws, w.Fits ∧ w.key = v.key := by
  intro w hw
  rcases Chain.mem_of_succeed hws hw with rfl | ⟨u, hu, rfl⟩
  · exact ⟨hv, rfl⟩
  · have hmem : u ∈ c.chain v.key := List.mem_of_getLast? hu
    exact ⟨h.fits v.key u hmem, h.key_eq v.key u hmem⟩

/-- An install is judged by what is stored. As no record comes twice, that is as good as judging each
version after those before it were installed. -/
theorem Encodes.install_eq (h : t.Encodes c.chain) {vs : List Version} (hv : ∀ v ∈ vs, v.Fits)
    {seen : List RecordKey} {b : Catalog} (hsame : ∀ k, k ∉ seen → b.chain k = c.chain k) :
    (∃ ws b', Chains.installation c.chain seen vs = .ok ws ∧ b.install seen vs = .ok b' ∧
        (∀ w ∈ ws, w.Fits) ∧ b'.chain = ws.foldl Chains.put b.chain) ∨
      ∃ e, Chains.installation c.chain seen vs = .error e ∧ b.install seen vs = .error e := by
  induction vs generalizing seen b with
  | nil => exact Or.inl ⟨[], b, rfl, rfl, by simp, rfl⟩
  | cons v rest ih =>
    rw [Chains.installation, Catalog.install]
    by_cases hseen : v.key ∈ seen
    · rw [if_pos hseen, if_pos hseen]
      exact Or.inr ⟨_, rfl, rfl⟩
    rw [if_neg hseen, if_neg hseen]
    cases v.isOpen with
    | false => exact Or.inr ⟨_, rfl, rfl⟩
    | true =>
      simp only [if_true]
      rw [hsame v.key hseen, Chain.followed_eq (h.ascending v.key)]
      cases hsucceed : Chain.succeed (c.chain v.key).last? v with
      | error e => exact Or.inr ⟨e, rfl, rfl⟩
      | ok ws =>
        have hws := h.of_mem_succeed (hv v List.mem_cons_self) hsucceed
        have hput := b.chain_put_foldl fun w hw => (hws w hw).2
        rw [hsame v.key hseen] at hput
        have hnext (l : Chain) : ∀ k, k ∉ v.key :: seen → (b.put v.key l).chain k = c.chain k := by
          intro k hk
          rw [List.mem_cons, not_or] at hk
          rw [Catalog.chain_put, if_neg hk.1, hsame k hk.2]
        rcases ih (fun w hw => hv w (List.mem_cons_of_mem _ hw)) (hnext _) with
          ⟨more, b', hmore, hinstall, hfits, hchain⟩ | ⟨e, hmore, hinstall⟩
        · refine Or.inl ⟨ws ++ more, b', by rw [hmore]; rfl, hinstall, fun w hw => ?_, ?_⟩
          · exact (List.mem_append.1 hw).elim (fun hw => (hws w hw).1) (hfits w)
          · rw [hchain, hput, List.foldl_append]
        · exact Or.inr ⟨e, by rw [hmore]; rfl, hinstall⟩

theorem Encodes.nodup (h : t.Encodes c.chain) (k : RecordKey) : (c.chain k).Nodup :=
  (h.ascending k).imp fun hlt he => UInt64.ne_of_lt hlt (congrArg Version.number he)

theorem Encodes.lists_versions (h : t.Encodes c.chain) : Chains.Lists c.chain c.versions := by
  have hchain : ∀ e ∈ c.toList, c.chain e.1 = e.2 := by
    intro e he
    rw [Catalog.chain, (OrderedMap.mem_toList_iff c e.1 e.2).1 he]
    rfl
  refine ⟨List.nodup_flatten.2 ⟨fun l hl => ?_, ?_⟩, fun v => ⟨fun hv => ?_, fun hv => ?_⟩⟩
  · obtain ⟨e, he, rfl⟩ := List.mem_map.1 hl
    rw [← hchain e he]
    exact h.nodup e.1
  · refine List.pairwise_map.2 (c.ascending.imp_of_mem fun {e e'} he he' hlt => ?_)
    rw [← hchain e he, ← hchain e' he']
    intro v hv hv'
    rw [← h.key_eq e.1 v hv, ← h.key_eq e'.1 v hv'] at hlt
    have hself : compare v.key v.key = .eq := Std.ReflCmp.compare_self
    cases hself.symm.trans hlt
  · obtain ⟨l, hl, hv⟩ := List.mem_flatten.1 hv
    obtain ⟨e, he, rfl⟩ := List.mem_map.1 hl
    rw [← hchain e he] at hv
    rwa [h.key_eq e.1 v hv]
  · rw [Catalog.chain] at hv
    cases hget : c.get? v.key with
    | none =>
      rw [hget] at hv
      cases hv
    | some l =>
      rw [hget] at hv
      exact List.mem_flatten.2
        ⟨l, List.mem_map.2 ⟨(v.key, l), (OrderedMap.mem_toList_iff c _ _).2 hget, rfl⟩, hv⟩

end Tree

/-! ## Requests -/

namespace Store

open Request (answered)

variable {s s₁ : Store} {c : Catalog}

/-- A store comes to what a catalog comes to, or a call on the medium fails and nothing changes. -/
structure Follows (s : Store) (x : Except Refusal Response × Catalog)
    (y : Except StoreError Response × Store) : Prop where
  called : s.Called y.2
  result : y.1 = x.1.mapError .refused ∧ y.2.tree.Encodes x.2.chain ∨
    (∃ e, y.1 = .error e) ∧ ¬ s.Served y.2 ∧ s.Kept y.2

theorem follows_failed (hkept : s.Kept s₁) (hs : ¬ s.Served s₁)
    (x : Except Refusal Response × Catalog) (e : StoreError) : s.Follows x (.error e, s₁) :=
  ⟨hkept.toCalled, Or.inr ⟨⟨e, rfl⟩, hs, hkept⟩⟩

theorem follows_kept (h : s.tree.Encodes c.chain) (hkept : s.Kept s₁)
    (r : Except Refusal Response) : s.Follows (r, c) (r.mapError .refused, s₁) :=
  ⟨hkept.toCalled, Or.inl ⟨rfl, hkept.encodes h⟩⟩

theorem follows_reading {α : Type} (h : s.tree.Encodes c.chain) {p : Probe α} {a : α}
    (hp : p.Answers s.tree (.ok a)) (answer : α → Response) :
    s.Follows (.ok (answer a), c) (answered answer (s.reading p)) := by
  obtain ⟨r, s₁, heq, hkept, hr⟩ := exists_reading hp
  rw [heq]
  rcases hr with rfl | ⟨⟨e, rfl⟩, hs⟩
  · exact follows_kept h hkept (.ok (answer a))
  · exact follows_failed hkept hs _ e

theorem follows_save (hkept : s.Kept s₁) (call : Call) (f : Tree → Tree) (ts : Timestamp)
    (hf : (f s.tree).Encodes c.chain) :
    s.Follows (.ok .done, c) (answered (fun () => .done) (s₁.save (·.change call f) ts)) := by
  obtain ⟨r, s₂, heq, hcalled, hr⟩ := exists_save s₁ call f ts
  rw [heq]
  rcases hr with ⟨rfl, htree, -⟩ | ⟨⟨e, rfl⟩, hs, hkept'⟩
  · refine ⟨hkept.toCalled.trans hcalled, Or.inl ⟨rfl, ?_⟩⟩
    show s₂.tree.Encodes c.chain
    rw [htree, hkept.tree_eq]
    exact hf
  · exact follows_failed (hkept.trans hkept') (hkept.toCalled.not_served hs) _ e

theorem follows_append (h : s.tree.Encodes c.chain) {v : Version} (hv : v.Fits) :
    s.Follows (c.serve (.append v)) (s.serve (.append v)) := by
  obtain ⟨r, s₁, heq, hkept, hr⟩ := exists_reading (h.answers_checkAppend hv)
  rw [serve, Catalog.serve, Chain.appended_eq (h.ascending v.key), append, heq]
  rcases hr with rfl | ⟨⟨e, rfl⟩, hs⟩
  · cases (if v.isOpen then Chain.checkAppend (c.chain v.key).last? v
        else .error (.appendClosed v.key) : Except Refusal Unit) with
    | error e => exact follows_kept h hkept (.error e)
    | ok _ =>
      refine follows_save hkept .insert (·.insert _ _) v.beginTs ?_
      rw [Catalog.chain_put_stored]
      exact h.insert hv
  · exact follows_failed hkept hs _ e

theorem follows_close (h : s.tree.Encodes c.chain) {k : RecordKey} (hk : k.Fits) (ts : Timestamp) :
    s.Follows (c.serve (.close k ts)) (s.serve (.close k ts)) := by
  obtain ⟨r, s₁, heq, hkept, hr⟩ := exists_reading (h.answers_closing hk ts)
  rw [serve, Catalog.serve, Chain.closed_eq (h.ascending k), close, heq]
  rcases hr with rfl | ⟨⟨e, rfl⟩, hs⟩
  · cases hclosing : Chain.closing (c.chain k).latest? k ts with
    | error e => exact follows_kept h hkept (.error e)
    | ok w =>
      obtain ⟨u, hu, rfl⟩ := Chain.mem_of_closing hclosing
      have hkey : u.key = k := h.key_eq k u hu
      have hfits := h.insert (v := u.closedAt ts) (h.fits k u hu)
      rw [← Catalog.chain_put_stored] at hfits
      refine follows_save hkept .insert (·.insert _ _) ts ?_
      subst hkey
      exact hfits
  · exact follows_failed hkept hs _ e

theorem follows_install (h : s.tree.Encodes c.chain) {vs : List Version} (hv : ∀ v ∈ vs, v.Fits) :
    s.Follows (c.serve (.install vs)) (s.serve (.install vs)) := by
  have hans := h.answers_installation hv []
  rw [serve, Catalog.serve, install]
  rcases h.install_eq hv (fun k _ => (rfl : c.chain k = c.chain k)) with
    ⟨ws, c', hws, hinstall, hfits, hchain⟩ | ⟨e, hws, hinstall⟩
  all_goals
    rw [hws] at hans
    obtain ⟨r, s₁, heq, hkept, hr⟩ := exists_reading hans
    rw [hinstall, heq]
    rcases hr with rfl | ⟨⟨e, rfl⟩, hs⟩
  · have hencodes := h.applyStored hfits
    rw [← hchain] at hencodes
    cases ws with
    | nil => exact ⟨hkept.toCalled, Or.inl ⟨rfl, hkept.encodes hencodes⟩⟩
    | cons w ws => exact follows_save hkept .applyBatch (·.apply _) _ hencodes
  · exact follows_failed hkept hs _ e
  · exact follows_kept h hkept (.error e)
  · exact follows_failed hkept hs _ _

theorem follows_prune (h : s.tree.Encodes c.chain) (ts : Timestamp) :
    s.Follows (c.serve (.prune ts)) (s.serve (.prune ts)) := by
  obtain ⟨r, s₁, heq, hcalled, hr⟩ := exists_prune h ts
  rw [serve, Catalog.serve, heq]
  rcases hr with ⟨⟨vs, hlists, rfl⟩, hencodes⟩ | ⟨⟨e, rfl⟩, hs, hkept⟩
  · refine ⟨hcalled, Or.inl ⟨?_, ?_⟩⟩
    · have hperm : vs.Perm c.versions :=
        (List.perm_ext_iff_of_nodup hlists.nodup h.lists_versions.nodup).2 fun v =>
          (hlists.mem_iff v).trans (h.lists_versions.mem_iff v).symm
      rw [← hperm.countP_eq]
      rfl
    · rwa [show (c.prune ts).chain = Chains.keep c.chain _ from funext (c.chain_prune ts)]
  · exact follows_failed hkept hs _ e

/-- Every request comes on a store to what it comes to on the catalog that the store stands for. -/
theorem follows_serve (h : s.tree.Encodes c.chain) {q : Request} (hq : q.Fits) :
    s.Follows (c.serve q) (s.serve q) := by
  cases q with
  | append v => exact follows_append h hq
  | close k ts => exact follows_close h hq ts
  | install vs => exact follows_install h hq
  | prune ts => exact follows_prune h ts
  | visible k ts =>
    have hreading := follows_reading h (h.answers_visible? hq ts) .version
    rw [Catalog.serve, Catalog.argmin_eq_head? ((h.ascending k).filter _), List.head?_filter]
    exact hreading
  | latest k => exact follows_reading h (h.answers_latest? hq) .version
  | chain k => exact follows_reading h (h.answers_chain hq) .chain

theorem Follows.exists_encodes {x : Except Refusal Response × Catalog}
    {y : Except StoreError Response × Store} (h : s.tree.Encodes c.chain) (hf : s.Follows x y) :
    ∃ c' : Catalog, y.2.tree.Encodes c'.chain := by
  rcases hf.result with ⟨-, hencodes⟩ | ⟨-, -, hkept⟩
  · exact ⟨x.2, hencodes⟩
  · exact ⟨c, hkept.encodes h⟩

theorem exists_encodes_run (h : s.tree.Encodes c.chain) {qs : List Request}
    (hqs : ∀ q ∈ qs, q.Fits) : ∃ c' : Catalog, (Request.run serve s qs).2.tree.Encodes c'.chain := by
  induction qs generalizing s c with
  | nil => exact ⟨c, h⟩
  | cons q rest ih =>
    obtain ⟨c', h'⟩ := (follows_serve h (hqs q List.mem_cons_self)).exists_encodes h
    exact ih h' fun q' hq' => hqs q' (List.mem_cons_of_mem _ hq')

theorem called_run (h : s.tree.Encodes c.chain) {qs : List Request} (hqs : ∀ q ∈ qs, q.Fits) :
    s.Called (Request.run serve s qs).2 := by
  induction qs generalizing s c with
  | nil => exact (Kept.refl s).toCalled
  | cons q rest ih =>
    have hfollows := follows_serve h (hqs q List.mem_cons_self)
    obtain ⟨c', hencodes⟩ := hfollows.exists_encodes h
    exact hfollows.called.trans (ih hencodes fun q' hq' => hqs q' (List.mem_cons_of_mem _ hq'))

theorem run_eq (h : s.tree.Encodes c.chain) {qs : List Request} (hqs : ∀ q ∈ qs, q.Fits)
    (served : s.Served (Request.run serve s qs).2) :
    (Request.run serve s qs).1 = (Request.run Catalog.serve c qs).1.map (·.mapError .refused) ∧
      (Request.run serve s qs).2.tree.Encodes (Request.run Catalog.serve c qs).2.chain := by
  induction qs generalizing s c with
  | nil => exact ⟨rfl, h⟩
  | cons q rest ih =>
    have hrest : ∀ q' ∈ rest, q'.Fits := fun q' hq' => hqs q' (List.mem_cons_of_mem _ hq')
    have hfollows := follows_serve h (hqs q List.mem_cons_self)
    obtain ⟨c', hencodes⟩ := hfollows.exists_encodes h
    have hstep : s.Served (s.serve q).2 := served.first (called_run hencodes hrest)
    obtain ⟨hanswer, hencodes⟩ := hfollows.result.resolve_right fun hfailed => hfailed.2.1 hstep
    obtain ⟨hanswers, hlast⟩ := ih hencodes hrest (served.second hfollows.called)
    refine ⟨?_, hlast⟩
    rw [Request.run, Request.run, List.map_cons]
    exact congrArg₂ List.cons hanswer hanswers

/-- The chain of a record in a tree, as a store tells it. -/
def chainIn (t : Tree) (k : RecordKey) : Except StoreError Chain :=
  (({ medium := Medium.ofTree t } : Store).chain k).1

theorem chainIn_eq {t : Tree} {a : Chains} (h : t.Encodes a) {k : RecordKey} (hk : k.Fits) :
    chainIn t k = .ok (a k) :=
  reading_ofTree (h.answers_chain hk)

theorem chainIn_serve (h : s.tree.Encodes c.chain) {q : Request} (hq : q.Fits) {k : RecordKey}
    (hk : k.Fits) (hspares : q.Spares k) : chainIn (s.serve q).2.tree k = chainIn s.tree k := by
  rcases (follows_serve h hq).result with ⟨-, hencodes⟩ | ⟨-, -, hkept⟩
  · have hnext := reading_ofTree (hencodes.answers_chain hk)
    rw [c.chain_serve hspares] at hnext
    exact hnext.trans (reading_ofTree (h.answers_chain hk)).symm
  · rw [hkept.tree_eq]

/-- What is stored and answered after requests, next to a catalog that was asked the same. -/
structure Refines (s : Store) (qs : List Request) : Prop where
  answers_eq : (Request.run serve s qs).1 =
    (Request.run Catalog.serve ∅ qs).1.map (·.mapError .refused)
  encodes : (Request.run serve s qs).2.tree.Encodes (Request.run Catalog.serve ∅ qs).2.chain
  spares : ∀ q : Request, q.Fits → ∀ k : RecordKey, k.Fits → q.Spares k →
    chainIn ((Request.run serve s qs).2.serve q).2.tree k =
      chainIn (Request.run serve s qs).2.tree k

/-- A store on an empty tree is a catalog: it answers all requests like one, whether it takes or
refuses them, and its tree holds the versions of the catalog, each at its place, and nothing else. -/
theorem refines_catalog (htree : s.tree = ∅) {qs : List Request} (hqs : ∀ q ∈ qs, q.Fits)
    (served : s.Served (Request.run serve s qs).2) : s.Refines qs := by
  have hempty : s.tree.Encodes (Catalog.chain ∅) := by
    rw [htree, Catalog.chain_empty]
    exact Tree.encodes_empty
  obtain ⟨hanswers, hencodes⟩ := run_eq hempty hqs served
  exact ⟨hanswers, hencodes, fun q hq k hk hspares => chainIn_serve hencodes hq hk hspares⟩

/-- Two versions of one record; a second open one is refused, and the one that ended is pruned. -/
theorem refines_catalog_rewrite :
    let k : RecordKey := ⟨"t", .int 1⟩
    let first : Version := { key := k, number := 0, payload := some [7], beginTs := 2 }
    let second : Version := { key := k, number := 1, payload := none, beginTs := 5 }
    let qs : List Request := [.append first, .append second, .install [second], .prune 5,
      .visible k 6, .close k 9, .latest k, .chain k]
    Store.empty.tree = ∅ ∧ (∀ q ∈ qs, q.Fits) ∧
      Store.empty.Served (Request.run serve Store.empty qs).2 ∧ Store.empty.Refines qs ∧
      (Request.run Catalog.serve ∅ qs).1 =
        [.ok .done, .error (.alreadyOpen k 0), .ok .done, .ok (.pruned 1),
          .ok (.version (some second)), .ok .done, .ok (.version none),
          .ok (.chain [second.closedAt 9])] := by
  intro k first second qs
  have hk : k.Fits := ⟨by decide +kernel, trivial⟩
  have hfirst : first.Fits := ⟨hk, by decide⟩
  have hsecond : second.Fits := ⟨hk, by decide⟩
  have hqs : ∀ q ∈ qs, q.Fits := by
    simp only [qs, List.forall_mem_cons, Request.Fits]
    exact ⟨hfirst, hsecond, ⟨hsecond, by simp⟩, trivial, hk, hk, hk, hk, by simp⟩
  have served := served_of_reliable (s := Store.empty) rfl
  exact ⟨rfl, hqs, served _, refines_catalog rfl hqs (served _), by decide +kernel⟩

end Store

end Mvcc
