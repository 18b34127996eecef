import Mvcc.Proofs.Granted

/-!
# Installs, step by step

An install judges all of its versions by what is stored and writes them in one call. A client that has
only closes and appends goes version by version: it ends the open version of the record, if there is
one, and appends the new one. Where the records are different, both come to the same.

* `Request.followUp`, `followUps`: the client, on whatever serves requests.
* `Store.Accords`: a store comes to what a catalog comes to, unless a call fails; kept by
  `Accords.andThen`.
* `Chain.followed_eq_appended`, `followed_of_open`: what follows on a chain, and its close and append.
* `Catalog.followUps_cases`: on a catalog the client and the install end alike.
* `Store.Reached.install_iff_followUps`: the result on stores.
-/

namespace Mvcc

namespace Request

variable {ε σ : Type}

/-- Goes on after a request that was granted. -/
def andThen (y : Except ε Response × σ) (next : Response → σ → Except ε Response × σ) :
    Except ε Response × σ :=
  match y.1 with
  | .error e => (.error e, y.2)
  | .ok x => next x y.2

/-- Ends the open version of a record, if there is one, and appends a version. -/
def followUp (serve : σ → Request → Except ε Response × σ) (s : σ) (v : Version) :
    Except ε Response × σ :=
  andThen (serve s (.latest v.key)) fun found s =>
    match found with
    | .version (some _) =>
      andThen (serve s (.close v.key v.beginTs)) fun _ s => serve s (.append v)
    | _ => serve s (.append v)

/-- Versions one after the other, for as long as nothing is refused. -/
def followUps (serve : σ → Request → Except ε Response × σ) (s : σ) :
    List Version → Except ε Response × σ
  | [] => (.ok .done, s)
  | v :: rest => andThen (followUp serve s v) fun _ s => followUps serve s rest

variable {y : Except ε Response × σ} {next : Response → σ → Except ε Response × σ}

theorem andThen_of_ok {x : Response} (h : y.1 = .ok x) : andThen y next = next x y.2 := by
  rw [andThen, h]

theorem andThen_of_error {e : ε} (h : y.1 = .error e) : andThen y next = y := by
  obtain ⟨_, s⟩ := y
  cases h
  rfl

theorem exists_of_andThen {x : Response} (h : (andThen y next).1 = .ok x) :
    ∃ x', y.1 = .ok x' ∧ (next x' y.2).1 = .ok x := by
  cases hy : y.1 with
  | error e =>
    rw [andThen_of_error hy, hy] at h
    cases h
  | ok x' =>
    rw [andThen_of_ok hy] at h
    exact ⟨x', rfl, h⟩

theorem exists_error_andThen (h : ∀ x, y.1 = .ok x → ∃ e, (next x y.2).1 = .error e) :
    ∃ e, (andThen y next).1 = .error e := by
  cases hy : y.1 with
  | error e => exact ⟨e, by rw [andThen_of_error hy, hy]⟩
  | ok x =>
    rw [andThen_of_ok hy]
    exact h x hy

end Request

open Request (andThen followUp followUps)

/-! ## Stores and catalogs -/

namespace Store

variable {s : Store} {c : Catalog} {v : Version} {vs : List Version}

/-- A store comes to what a catalog comes to, or a call on the medium fails on the way. -/
structure Accords (s : Store) (x : Except Refusal Response × Catalog)
    (y : Except StoreError Response × Store) : Prop where
  called : s.Called y.2
  result : y.1 = x.1.mapError .refused ∧ y.2.tree.Encodes x.2.chain ∨
    (∃ e, y.1 = .error e) ∧ ¬ s.Served y.2

variable {x : Except Refusal Response × Catalog} {y : Except StoreError Response × Store}

theorem Follows.accords (h : s.Follows x y) : s.Accords x y :=
  ⟨h.called, h.result.imp_right fun hfailed => ⟨hfailed.1, hfailed.2.1⟩⟩

theorem accords_serve (h : s.tree.Encodes c.chain) {q : Request} (hq : q.Fits) :
    s.Accords (c.serve q) (s.serve q) :=
  (follows_serve h hq).accords

theorem Accords.andThen {f : Response → Catalog → Except Refusal Response × Catalog}
    {g : Response → Store → Except StoreError Response × Store} (h : s.Accords x y)
    (next : ∀ a (c : Catalog) (s' : Store), s'.tree.Encodes c.chain →
      s'.Accords (f a c) (g a s')) :
    s.Accords (Request.andThen x f) (Request.andThen y g) := by
  rcases h.result with ⟨hreply, hencodes⟩ | ⟨⟨e, he⟩, hs⟩
  · cases hx : x.1 with
    | error e =>
      rw [hx] at hreply
      rw [Request.andThen_of_error hx, Request.andThen_of_error hreply]
      exact h
    | ok a =>
      rw [hx] at hreply
      rw [Request.andThen_of_ok hx, Request.andThen_of_ok hreply]
      have hnext := next a x.2 y.2 hencodes
      exact ⟨h.called.trans hnext.called, hnext.result.imp_right fun ⟨he, hs⟩ =>
        ⟨he, h.called.not_served hs⟩⟩
  · rw [Request.andThen_of_error he]
    exact ⟨h.called, Or.inr ⟨⟨e, he⟩, hs⟩⟩

theorem accords_followUp (h : s.tree.Encodes c.chain) (hv : v.Fits) :
    s.Accords (followUp Catalog.serve c v) (followUp serve s v) := by
  refine (accords_serve (q := .latest v.key) h hv.1).andThen fun found c s' h => ?_
  have happend {c : Catalog} {s' : Store} (h : s'.tree.Encodes c.chain) :
      s'.Accords (c.serve (.append v)) (s'.serve (.append v)) := accords_serve h hv
  cases found with
  | version found =>
    cases found with
    | none => exact happend h
    | some u =>
      exact (accords_serve (q := .close v.key v.beginTs) h hv.1).andThen fun _ c s' h => happend h
  | done | pruned | chain => exact happend h

theorem accords_followUps (h : s.tree.Encodes c.chain) (hvs : ∀ v ∈ vs, v.Fits) :
    s.Accords (followUps Catalog.serve c vs) (followUps serve s vs) := by
  induction vs generalizing s c with
  | nil => exact (follows_kept h (Kept.refl s) (.ok .done)).accords
  | cons v rest ih =>
    refine (accords_followUp h (hvs v List.mem_cons_self)).andThen fun _ c s' h => ?_
    exact ih h fun w hw => hvs w (List.mem_cons_of_mem _ hw)

end Store

/-! ## Chains -/

namespace Chain

variable {l : Chain} {u v : Version}

theorem followed_eq_appended (opened : v.isOpen = true)
    (latest : l.getLast?.filter (·.isOpen) = none) : l.followed v = l.appended v := by
  rw [followed, appended, if_pos opened]
  cases hl : l.getLast? with
  | none => rfl
  | some u =>
    rw [hl, Option.filter_some] at latest
    split_ifs at latest with hopen
    simp only [if_neg hopen]

theorem followed_of_open (opened : v.isOpen = true)
    (latest : l.getLast?.filter (·.isOpen) = some u) :
    (∃ l', l.closed v.key v.beginTs = .ok l' ∧
        ((∃ l'', l.followed v = .ok l'' ∧ l'.appended v = .ok l'') ∨
          (∃ e, l.followed v = .error e) ∧ ∃ e, l'.appended v = .error e)) ∨
      (∃ e, l.closed v.key v.beginTs = .error e) ∧ ∃ e, l.followed v = .error e := by
  obtain ⟨hl, hopen⟩ := Option.filter_eq_some_iff.1 latest
  rw [followed, closed, hl]
  simp only [if_pos hopen]
  -- what follows is judged by its number first, a close and an append by the begin
  by_cases hbegin : v.beginTs ≤ u.beginTs
  · refine Or.inr ⟨⟨_, if_pos hbegin⟩, ?_⟩
    rw [if_pos hbegin]
    split_ifs
    · exact ⟨_, rfl⟩
    · exact ⟨_, rfl⟩
  · refine Or.inl ⟨_, if_neg hbegin, ?_⟩
    have hlast : (l.dropLast ++ [u.closedAt v.beginTs]).getLast? = some (u.closedAt v.beginTs) :=
      List.getLast?_concat
    have hended : ¬ (u.closedAt v.beginTs).isOpen = true := by simp
    rw [appended, if_pos opened, hlast]
    simp only [if_neg hbegin, if_neg hended]
    by_cases hnumber : v.number ≤ u.number
    · exact Or.inr ⟨⟨_, if_pos hnumber⟩, _, if_pos hnumber⟩
    · exact Or.inl ⟨_, if_neg hnumber, (if_neg hnumber).trans (by simp)⟩

end Chain

/-! ## Catalogs -/

namespace Catalog

variable {c : Catalog} {v : Version}

theorem put_put (c : Catalog) (k : RecordKey) (l l' : Chain) : (c.put k l).put k l' = c.put k l' := by
  apply OrderedMap.eq_of_get?_eq
  intro k'
  simp only [put, OrderedMap.get?_insert]
  split_ifs <;> rfl

theorem serve_append_of_ok {l : Chain} (h : (c.chain v.key).appended v = .ok l) :
    c.serve (.append v) = (.ok .done, c.put v.key l) := by
  rw [serve, h]
  rfl

theorem serve_append_of_error {e : Refusal} (h : (c.chain v.key).appended v = .error e) :
    c.serve (.append v) = (.error e, c) := by
  rw [serve, h]
  rfl

theorem followUp_cases (opened : v.isOpen = true) :
    (∃ l, (c.chain v.key).followed v = .ok l ∧ followUp serve c v = (.ok .done, c.put v.key l)) ∨
      (∃ e, (c.chain v.key).followed v = .error e) ∧ ∃ e, (followUp serve c v).1 = .error e := by
  have hlatest : c.serve (.latest v.key) =
      (.ok (.version ((c.chain v.key).getLast?.filter (·.isOpen))), c) := rfl
  rw [followUp, hlatest, Request.andThen_of_ok rfl]
  cases hl : (c.chain v.key).getLast?.filter (·.isOpen) with
  | none =>
    rw [Chain.followed_eq_appended opened hl]
    cases happended : (c.chain v.key).appended v with
    | error e => exact Or.inr ⟨⟨e, rfl⟩, e, congrArg Prod.fst (serve_append_of_error happended)⟩
    | ok l => exact Or.inl ⟨l, rfl, serve_append_of_ok happended⟩
  | some u =>
    rcases Chain.followed_of_open opened hl with ⟨l, hclosed, hends⟩ | ⟨⟨e, hclosed⟩, hrefused⟩
    · have hclose : c.serve (.close v.key v.beginTs) = (.ok .done, c.put v.key l) := by
        rw [serve, hclosed]
        rfl
      have hchain : (c.put v.key l).chain v.key = l := by rw [chain_put, if_pos rfl]
      simp only
      rw [hclose, Request.andThen_of_ok rfl]
      rcases hends with ⟨l', hfollowed, happended⟩ | ⟨hrefused, e, happended⟩
      all_goals rw [← hchain] at happended
      · refine Or.inl ⟨l', hfollowed, ?_⟩
        rw [serve_append_of_ok happended, put_put]
      · exact Or.inr ⟨hrefused, e, congrArg Prod.fst (serve_append_of_error happended)⟩
    · have hclose : c.serve (.close v.key v.beginTs) = (.error e, c) := by
        rw [serve, hclosed]
        rfl
      simp only
      rw [hclose, Request.andThen_of_error rfl]
      exact Or.inr ⟨hrefused, e, rfl⟩

theorem followUp_of_ended (ended : ¬ v.isOpen = true) : ∃ e, (followUp serve c v).1 = .error e := by
  have happend (c : Catalog) : ∃ e, (c.serve (.append v)).1 = .error e := by
    refine ⟨.appendClosed v.key, congrArg Prod.fst (serve_append_of_error ?_)⟩
    rw [Chain.appended, if_neg ended]
  refine Request.exists_error_andThen fun found _ => ?_
  cases found with
  | version found =>
    cases found with
    | none => exact happend _
    | some u => exact Request.exists_error_andThen fun _ _ => happend _
  | done | pruned | chain => exact happend _

/-- On different records an install and a client that goes step by step end alike. -/
theorem followUps_cases {seen : List RecordKey} {vs : List Version}
    (different : (vs.map (·.key)).Nodup) (unseen : ∀ v ∈ vs, v.key ∉ seen) :
    (∃ c', c.install seen vs = .ok c' ∧ followUps serve c vs = (.ok .done, c')) ∨
      (∃ e, c.install seen vs = .error e) ∧ ∃ e, (followUps serve c vs).1 = .error e := by
  induction vs generalizing c seen with
  | nil => exact Or.inl ⟨c, rfl, rfl⟩
  | cons v rest ih =>
    rw [List.map_cons, List.nodup_cons] at different
    rw [install, followUps, if_neg (unseen v List.mem_cons_self)]
    by_cases hopen : v.isOpen = true
    · rw [if_pos hopen]
      rcases followUp_cases (c := c) hopen with ⟨l, hfollowed, hclient⟩ | ⟨⟨e, he⟩, e', he'⟩
      · rw [hfollowed, hclient, Request.andThen_of_ok rfl]
        -- the records to come are still unseen
        refine ih different.2 fun w hw hmem => ?_
        rcases List.mem_cons.1 hmem with heq | hmem
        · exact different.1 (heq ▸ List.mem_map_of_mem hw)
        · exact unseen w (List.mem_cons_of_mem _ hw) hmem
      · rw [he, Request.andThen_of_error he']
        exact Or.inr ⟨⟨e, rfl⟩, e', he'⟩
    · obtain ⟨e, he⟩ := followUp_of_ended (c := c) hopen
      rw [if_neg hopen, Request.andThen_of_error he]
      exact Or.inr ⟨⟨_, rfl⟩, e, he⟩

end Catalog

/-! ## The result -/

theorem Tree.Encodes.tree_eq {t t' : Tree} {a : Chains} (h : t.Encodes a) (h' : t'.Encodes a) :
    t = t' :=
  OrderedMap.eq_of_mem_iff fun e => (h.mem_iff e).trans (h'.mem_iff e).symm

namespace Store

variable {s : Store} {qs : List Request} {v : Version} {vs : List Version} {x : Response}

theorem maxTs_followUp (h : (followUp serve s v).1 = .ok x) :
    (followUp serve s v).2.maxTs = max s.maxTs v.beginTs := by
  have happend {s : Store} (h : (s.serve (.append v)).1 = .ok x) :
      (s.serve (.append v)).2.maxTs = max s.maxTs v.beginTs := maxTs_of_ok h
  obtain ⟨found, hfound, hrest⟩ := Request.exists_of_andThen h
  have hlatest : (s.serve (.latest v.key)).2.maxTs = s.maxTs := maxTs_of_ok hfound
  rw [followUp, Request.andThen_of_ok hfound, ← hlatest]
  cases found with
  | version found =>
    cases found with
    | none => exact happend hrest
    | some u =>
      obtain ⟨x', hclose, hlast⟩ := Request.exists_of_andThen hrest
      have hclosed := maxTs_of_ok hclose
      simp only [Request.times, List.foldl_cons, List.foldl_nil] at hclosed
      simp only
      rw [Request.andThen_of_ok hclose, happend hlast, hclosed]
      refine Timestamp.eq_of_le_iff fun y => ?_
      rw [Timestamp.max_le_iff, Timestamp.max_le_iff, and_assoc, and_self]
  | done | pruned | chain => exact happend hrest

theorem maxTs_followUps (h : (followUps serve s vs).1 = .ok x) :
    (followUps serve s vs).2.maxTs = (vs.map (·.beginTs)).foldl max s.maxTs := by
  induction vs generalizing s with
  | nil => rfl
  | cons v rest ih =>
    obtain ⟨x', hx', hrest⟩ := Request.exists_of_andThen h
    rw [followUps, Request.andThen_of_ok hx', List.map_cons, List.foldl_cons, ← maxTs_followUp hx']
    exact ih hrest

/-- A store that was empty before some requests, whether it granted or refused them. -/
def Reached (s : Store) : Prop :=
  ∃ (start : Store) (qs : List Request), start.tree = ∅ ∧ (∀ q ∈ qs, q.Fits) ∧
    (Request.run serve start qs).2 = s

theorem Reached.exists_encodes (h : s.Reached) : ∃ c : Catalog, s.tree.Encodes c.chain := by
  obtain ⟨start, qs, htree, hqs, rfl⟩ := h
  exact exists_encodes_run (Tree.encodes_chain_empty htree) hqs

/-- An install of versions of different records takes place if a client succeeds with them step by
step, and only then, and both leave the same. -/
theorem Reached.install_iff_followUps (h : s.Reached) (fits : ∀ v ∈ vs, v.Fits)
    (different : (vs.map (·.key)).Nodup) (atOnce : s.Served (s.serve (.install vs)).2)
    (stepwise : s.Served (followUps serve s vs).2) :
    ((s.serve (.install vs)).1 = .ok .done ↔ (followUps serve s vs).1 = .ok .done) ∧
      ((s.serve (.install vs)).1 = .ok .done →
        (s.serve (.install vs)).2.tree = (followUps serve s vs).2.tree ∧
          (s.serve (.install vs)).2.maxTs = (followUps serve s vs).2.maxTs) := by
  obtain ⟨c, hencodes⟩ := h.exists_encodes
  obtain ⟨hinstall, htree⟩ := (accords_serve (q := .install vs) hencodes fits).result.resolve_right
    fun hfailed => hfailed.2 atOnce
  obtain ⟨hclient, htree'⟩ := (accords_followUps hencodes fits).result.resolve_right
    fun hfailed => hfailed.2 stepwise
  have hserve : c.serve (.install vs) = c.changed (c.install [] vs) := rfl
  have unseen : ∀ v ∈ vs, v.key ∉ ([] : List RecordKey) := by simp
  rcases Catalog.followUps_cases (c := c) different unseen with
    ⟨c', hgranted, hsame⟩ | ⟨⟨e, hrefused⟩, e', hrefused'⟩
  · rw [hserve, hgranted] at hinstall htree
    rw [hsame] at hclient htree'
    refine ⟨iff_of_true hinstall hclient, fun _ => ⟨htree.tree_eq htree', ?_⟩⟩
    rw [maxTs_of_ok hinstall, maxTs_followUps hclient]
    rfl
  · rw [hserve, hrefused] at hinstall
    rw [hrefused'] at hclient
    have hfailed : ¬ (s.serve (.install vs)).1 = .ok .done := by
      rw [hinstall]
      rintro ⟨⟩
    have hfailed' : ¬ (followUps serve s vs).1 = .ok .done := by
      rw [hclient]
      rintro ⟨⟩
    exact ⟨iff_of_false hfailed hfailed', fun hok => absurd hok hfailed⟩

/-- One record with an open version, one whose last version has ended, and a new one. -/
theorem install_iff_followUps_three :
    let k (n : Int64) : RecordKey := ⟨"t", .int n⟩
    let version (n : Int64) (number : UInt64) (ts : Timestamp) : Version :=
      { key := k n, number, payload := some [7], beginTs := ts }
    let s := (Request.run serve Store.empty
      [.append (version 1 0 2), .append (version 2 0 3), .append (version 2 1 4), .close (k 2) 5]).2
    let vs := [version 1 4 6, version 2 1 6, version 3 0 6]
    s.Reached ∧ (∀ v ∈ vs, v.Fits) ∧ (vs.map (·.key)).Nodup ∧ s.Served (s.serve (.install vs)).2 ∧
      s.Served (followUps serve s vs).2 ∧
      (((s.serve (.install vs)).1 = .ok .done ↔ (followUps serve s vs).1 = .ok .done) ∧
        ((s.serve (.install vs)).1 = .ok .done →
          (s.serve (.install vs)).2.tree = (followUps serve s vs).2.tree ∧
            (s.serve (.install vs)).2.maxTs = (followUps serve s vs).2.maxTs)) ∧
      (followUps serve s vs).1 = .ok .done ∧ (followUps serve s vs).2.maxTs = 6 := by
  intro k version s vs
  have htable : (Bytes.ofText "t").length < UInt64.size := by decide +kernel
  have hfits : ∀ n number ts, (version n number ts).Fits := by
    refine fun n number ts => ⟨⟨htable, trivial⟩, fun p hp => ?_⟩
    cases hp
    decide
  have hvs : ∀ v ∈ vs, v.Fits := by simp [vs, hfits]
  have hreached : s.Reached := by
    refine ⟨Store.empty, _, rfl, ?_, rfl⟩
    simp only [List.forall_mem_cons, Request.Fits]
    exact ⟨hfits 1 0 2, hfits 2 0 3, hfits 2 1 4, (hfits 2 1 4).1, by simp⟩
  have hdifferent : (vs.map (·.key)).Nodup := by decide +kernel
  have atOnce : s.Served (s.serve (.install vs)).2 := by decide +kernel
  have stepwise : s.Served (followUps serve s vs).2 := by decide +kernel
  exact ⟨hreached, hvs, hdifferent, atOnce, stepwise,
    hreached.install_iff_followUps hvs hdifferent atOnce stepwise, by decide +kernel,
    by decide +kernel⟩

end Store

end Mvcc
