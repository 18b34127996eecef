import Mvcc.Proofs.History

/-!
# Chains and the history they come from

The chain of a record holds what was committed to the record, in order, less a beginning that no
snapshot looks at any more.

* `Chain.Keeps`: what is left of the writers, with its rules for the next version (`Keeps.extend`)
  and for dropping ended versions (`Keeps.keep`).
* `Keeps.getLast?_eq`, `Keeps.visible?_eq`: the last version is that of the last writer, and a
  snapshot sees the last writer before it.
* `Chains.advance`, `Session.installs`, `Moves.chain_next`: an operation adds what it installs to a
  chain, and drops no more than what nobody looks at.
* `Trace.Stored`, with `Stored.next`.
-/

namespace Mvcc

open Session

/-- When a version began and what it holds. -/
def Version.mark (v : Version) : Timestamp × Option Payload := (v.beginTs, v.payload)

namespace Chain

/-- The chain holds the writers but for some first ones, and if any are missing then the first one
that is held began early enough for all who may look. -/
def Keeps (c : Chain) (ws : List (Timestamp × Option Payload)) (past : Timestamp → Prop) : Prop :=
  ∃ n, c.map Version.mark = ws.drop n ∧ (ws ≠ [] → n < ws.length) ∧
    (0 < n → ∀ w ∈ (ws.drop n).head?, past w.1)

variable {c : Chain} {ws : List (Timestamp × Option Payload)} {past past' : Timestamp → Prop}

theorem keeps_nil : Keeps [] [] past :=
  ⟨0, rfl, fun h => absurd rfl h, fun h => absurd h (Nat.lt_irrefl 0)⟩

theorem Keeps.mono (h : c.Keeps ws past) (hp : ∀ w ∈ ws, past w.1 → past' w.1) :
    c.Keeps ws past' := by
  obtain ⟨n, hmap, hlen, hpast⟩ := h
  refine ⟨n, hmap, hlen, fun hpos w hw => hp w ?_ (hpast hpos w hw)⟩
  exact List.mem_of_mem_drop (List.mem_of_head? hw)

theorem map_mark_extend (c : Chain) (v : Version) :
    (c.extend v).map Version.mark = c.map Version.mark ++ [v.mark] := by
  rcases List.eq_nil_or_concat' c with rfl | ⟨c, u, rfl⟩
  · rfl
  · rw [extend_concat, List.map_append, List.map_append, List.append_assoc]
    rfl

theorem Keeps.extend (h : c.Keeps ws past) (v : Version) :
    (c.extend v).Keeps (ws ++ [v.mark]) past := by
  obtain ⟨n, hmap, hlen, hpast⟩ := h
  by_cases hws : ws = []
  · subst hws
    rw [List.drop_nil, List.map_eq_nil_iff] at hmap
    subst hmap
    exact ⟨0, rfl, fun _ => Nat.zero_lt_one, fun hpos => absurd hpos (Nat.lt_irrefl 0)⟩
  · have hn := hlen hws
    have hdrop : (ws ++ [v.mark]).drop n = ws.drop n ++ [v.mark] :=
      List.drop_append_of_le_length (Nat.le_of_lt hn)
    refine ⟨n, ?_, fun _ => ?_, fun hpos w hw => ?_⟩
    · rw [map_mark_extend, hmap, hdrop]
    · rw [List.length_append]
      exact Nat.lt_add_right _ hn
    · -- the first writer held is still the first
      have hhead : (ws.drop n).head? ≠ none := by
        simpa using hn
      rw [hdrop, List.head?_append] at hw
      cases hfirst : (ws.drop n).head? with
      | none => exact absurd hfirst hhead
      | some w' =>
        rw [hfirst] at hw
        cases hw
        exact hpast hpos w hfirst

theorem Keeps.keep (h : c.Keeps ws past) (hc : c.Linked) {low : Timestamp}
    (hlow : ∀ ts, ts ≤ low → past ts) :
    Keeps (c.filter fun v => !v.endedBy low) ws past := by
  obtain ⟨n, hmap, hlen, hpast⟩ := h
  obtain ⟨m, hm, hmlen, hmlow⟩ := hc.filter_eq_drop low
  have hdrop : (c.drop m).map Version.mark = ws.drop (n + m) := by
    rw [List.map_drop, hmap, List.drop_drop]
  refine ⟨n + m, by rw [hm, hdrop], fun hws => ?_, fun hpos w hw => ?_⟩
  · have hn := hlen hws
    have hlength : c.length = ws.length - n := by
      rw [← List.length_map (f := Version.mark), hmap, List.length_drop]
    have hc : c ≠ [] := fun he => by
      rw [he, List.length_nil] at hlength
      omega
    have := hmlen hc
    omega
  · rcases Nat.eq_zero_or_pos m with rfl | hmpos
    · exact hpast hpos w hw
    · rw [← hdrop, List.head?_map, Option.mem_def, Option.map_eq_some_iff] at hw
      obtain ⟨v, hv, rfl⟩ := hw
      exact hlow _ (hmlow hmpos v hv)

/-- What is left of a chain: all of it, or all but what ended before a time that is over. -/
inductive Spares (c : Chain) (gone : Timestamp → Prop) : Chain → Prop
  | all : c.Spares gone c
  | pruned {low : Timestamp} (low_gone : gone low) :
    c.Spares gone (c.filter fun v => !v.endedBy low)

theorem Keeps.spare {c' : Chain} {gone : Timestamp → Prop} (h : c.Keeps ws past) (hc : c.Linked)
    (hs : c.Spares gone c') (hgone : ∀ low, gone low → ∀ ts, ts ≤ low → past ts) :
    c'.Keeps ws past := by
  cases hs with
  | all => exact h
  | pruned low_gone => exact h.keep hc (hgone _ low_gone)

theorem Spares.getLast?_eq {c' : Chain} {gone : Timestamp → Prop} (hs : c.Spares gone c')
    (hc : c.Linked) : c'.getLast? = c.getLast? := by
  cases hs with
  | all => rfl
  | @pruned low low_gone =>
    obtain ⟨n, hn, hlen, -⟩ := hc.filter_eq_drop low
    rw [hn, List.getLast?_drop]
    by_cases hnil : c = []
    · simp [hnil]
    · rw [if_neg (Nat.not_le.2 (hlen hnil))]

theorem Keeps.getLast?_eq (h : c.Keeps ws past) : c.getLast?.map Version.mark = ws.getLast? := by
  obtain ⟨n, hmap, hlen, -⟩ := h
  rw [← List.getLast?_map, hmap, List.getLast?_drop]
  by_cases hws : ws = []
  · subst hws
    simp
  · rw [if_neg (Nat.not_le.2 (hlen hws))]

/-- A snapshot that sees the first writer held sees the last writer before it. -/
theorem Keeps.visible?_eq (h : c.Keeps ws past) (hc : c.Linked) {ts : Timestamp}
    (hts : ∀ b, past b → b ≤ ts) :
    (c.visible? ts).map Version.mark = (ws.filter fun w => decide (w.1 ≤ ts)).getLast? := by
  obtain ⟨n, hmap, hlen, hpast⟩ := h
  have hfilter : (c.filter fun v => decide (v.beginTs ≤ ts)).map Version.mark =
      (ws.drop n).filter fun w => decide (w.1 ≤ ts) := by
    rw [← hmap, List.filter_map]
    rfl
  rw [hc.visible?_eq, ← List.getLast?_map, hfilter]
  -- if writers are gone then the first one held is in sight, and hides them
  rcases Nat.eq_zero_or_pos n with rfl | hpos
  · rfl
  · have hsplit : ws.filter (fun w => decide (w.1 ≤ ts)) =
        (ws.take n).filter (fun w => decide (w.1 ≤ ts)) ++
          (ws.drop n).filter fun w => decide (w.1 ≤ ts) := by
      rw [← List.filter_append, List.take_append_drop]
    rw [hsplit, List.getLast?_append]
    cases hdrop : ws.drop n with
    | nil =>
      have hnil : ws = [] := by
        by_contra hws
        exact absurd (List.drop_eq_nil_iff.1 hdrop) (Nat.not_le.2 (hlen hws))
      simp [hnil]
    | cons w rest =>
      have hw : w.1 ≤ ts := hts _ (hpast hpos w (by rw [hdrop]; rfl))
      rw [List.filter_cons_of_pos (by simpa using hw), List.getLast?_cons]
      rfl

end Chain

/-! ## What an operation does to a chain -/

/-- What is written under every key, and when. -/
abbrev Installs := RecordKey → Option (Timestamp × Write)

/-- The chains after the next versions took over. -/
def Chains.advance (a : Chains) (new : Installs) : Chains := fun k =>
  match new k with
  | none => a k
  | some (ts, w) => (a k).extend ((a.draft k w).version k ts)

theorem Chain.Keeps.advance {a : Chains} {k : RecordKey} {ws : List (Timestamp × Option Payload)}
    {past : Timestamp → Prop} (h : (a k).Keeps ws past) (new : Installs) :
    (a.advance new k).Keeps (ws ++ ((new k).map fun i => (i.1, i.2.payload)).toList) past := by
  rw [Chains.advance]
  cases new k with
  | none => rwa [Option.map_none, Option.toList_none, List.append_nil]
  | some i => exact h.extend ((a.draft k i.2).version k i.1)

namespace Session

/-- What an operation that was answered has installed. -/
def installs (s : Session) : Op → Reply → Installs
  | .commit id, .committed ts => fun k =>
    ((s.held.get? id).bind (·.writes.get? k)).map (ts, ·)
  | _, _ => fun _ => none

theorem installs_of_silent (s : Session) {op : Op} {r : Reply} (h : Event.Silent ⟨op, r⟩) :
    s.installs op r = fun _ => none := by
  cases op <;> try rfl
  cases r <;> try rfl
  cases h.commit? []

theorem installs_of_put? (s : Session) {op : Op} {i : TxnId} {k : RecordKey} {p : Option Payload}
    (h : op.put? = some (i, k, p)) (r : Reply) : s.installs op r = fun _ => none := by
  cases op <;> first | rfl | cases h

theorem installs_commit {s : Session} {id : TxnId} {t : Txn} (active : s.Active id t)
    (ts : Timestamp) :
    s.installs (.commit id) (.committed ts) = fun k => (t.writes.get? k).map (ts, ·) := by
  funext k
  rw [installs, active.1]
  rfl

/-- No active transaction looks at what was before. -/
def Passed (s : Session) (ts : Timestamp) : Prop := ∀ i t, s.Active i t → ts ≤ t.beginTs

theorem Passed.mono {s : Session} {ts ts' : Timestamp} (h : s.Passed ts) (hle : ts' ≤ ts) :
    s.Passed ts' :=
  fun i t ht => UInt64.le_trans hle (h i t ht)

/-- Registered transactions began in the past. -/
def Timely (s : Session) : Prop :=
  ∀ id r, s.engine.registry.get? id = some r → r.beginTs ≤ s.engine.clock.last

theorem Moves.passed {s s' : Session} {a a' : Chains} {op : Op} {r : Reply}
    (hm : s.Moves a s' op r a') {ts : Timestamp} (hts : ts ≤ s.engine.clock.last)
    (h : s.Passed ts) : s'.Passed ts := by
  intro i u hu
  rcases hm.begin_eq hu with ⟨t, ht, hbegin⟩ | ⟨-, hlt, rfl⟩
  · exact hbegin ▸ h i t ht
  · exact UInt64.le_trans hts (UInt64.le_of_lt hlt)

theorem Stands.passed {s : Session} {a : Chains} (h : s.Stands a) {low : Timestamp}
    (low_le : ∀ id r, s.engine.registry.get? id = some r → low ≤ r.beginTs) : s.Passed low := by
  intro i t ht
  obtain ⟨r, hr, hbegin⟩ := h.registered i t ht
  exact hbegin ▸ low_le i r hr

theorem lowWatermark_le_clock {s : Session} (h : s.Timely) :
    s.engine.lowWatermark ≤ s.engine.clock.last := by
  cases hempty : s.engine.registry.toList with
  | nil =>
    rw [Engine.lowWatermark, OrderedMap.values, hempty]
    exact UInt64.le_refl _
  | cons e rest =>
    have hget : s.engine.registry.get? e.1 = some e.2 :=
      (OrderedMap.mem_toList_iff _ _ _).1 (by rw [hempty]; exact List.mem_cons_self)
    exact UInt64.le_trans (Engine.lowWatermark_le hget) (h e.1 e.2 hget)

theorem Moves.timely {s s' : Session} {a a' : Chains} {op : Op} {r : Reply}
    (hm : s.Moves a s' op r a') (h : s.Timely) : s'.Timely := by
  have hclock := hm.clock_le
  intro i u hu
  rcases hm.engine_eq with ⟨registry, engine, hold⟩ | ⟨-, -, id, engine⟩
  · rw [engine.registry_eq] at hu
    exact UInt64.le_trans (h i u (hold i u hu)) hclock
  · rw [engine, OrderedMap.get?_insert] at hu
    split_ifs at hu
    · cases hu
      exact UInt64.le_refl _
    · exact UInt64.le_trans (h i u hu) hclock

theorem Moves.chain_next {s s' : Session} {a a' : Chains} {op : Op} {r : Reply}
    (hm : s.Moves a s' op r a') (hs : s.Stands a) (k : RecordKey) :
    (a.advance (s.installs op r) k).Linked ∧
      (a.advance (s.installs op r) k).Spares
        (fun low => s'.Passed low ∧ (s.Timely → low ≤ s.engine.clock.last)) (a' k) := by
  have hlinked := hs.sound.linked k
  have hsame {gone : Timestamp → Prop} (h : s.installs op r = fun _ => none) :
      (a.advance (s.installs op r) k).Linked ∧ (a.advance (s.installs op r) k).Spares gone (a k) := by
    rw [h]
    exact ⟨hlinked, .all⟩
  cases hm with
  | idle silent => exact hsame (installs_of_silent s silent)
  | ended silent => exact hsame (installs_of_silent s silent)
  | began | own | seen => exact hsame rfl
  | put put => exact hsame (installs_of_put? s put _)
  | @settled id t active free writes engine turns =>
    have hnone : s.installs (.commit id) (.committed t.beginTs) = fun _ => none := by
      rw [installs_commit active]
      funext k
      rw [(OrderedMap.isEmpty_iff _).1 writes k, Option.map_none]
    exact hsame hnone
  | @committed id t _ active free writes tick engine leaves encodes turns =>
    have hcommit : a.advance (s.installs (.commit id) (.committed s'.engine.clock.last)) k =
        a.commit t.writes s'.engine.clock.last k := by
      simp only [Chains.advance, installs_commit active, Chains.commit_apply]
      cases t.writes.get? k <;> rfl
    rw [hcommit]
    refine ⟨(hs.sound_commit active free tick).linked k, ?_⟩
    -- collections spare what the transactions that are left may read
    cases leaves with
    | early undue count => exact .all
    | failed due => exact .all
    | collected due low_le =>
      have hpassed := hs.passed low_le
      exact .pruned ⟨fun i u hu => hpassed i u (turns i u hu).2, fun _ =>
        UInt64.le_trans (hpassed id t active) (hs.begin_le id t active)⟩
  | collected low_le engine clock encodes turns low_eq =>
    have hpassed := hs.passed low_le
    exact ⟨hlinked, .pruned ⟨fun i u hu => hpassed i u (turns i u hu), fun htimely =>
      low_eq ▸ lowWatermark_le_clock htimely⟩⟩

/-- What a chain holds of its writers after an operation. What was over stays so, and so is what the
operation drops. -/
theorem Moves.keeps_next_of {s s' : Session} {a a' : Chains} {op : Op} {r : Reply} {k : RecordKey}
    {ws : List (Timestamp × Option Payload)} {past past' : Timestamp → Prop}
    (hm : s.Moves a s' op r a') (hs : s.Stands a) (h : (a k).Keeps ws past)
    (old : ∀ w ∈ ws, past w.1 → past' w.1)
    (gone : ∀ low, s'.Passed low → (s.Timely → low ≤ s.engine.clock.last) →
      ∀ ts, ts ≤ low → past' ts) :
    (a' k).Keeps (ws ++ ((s.installs op r k).map fun i => (i.1, i.2.payload)).toList) past' := by
  obtain ⟨hlinked, hspares⟩ := hm.chain_next hs k
  refine Chain.Keeps.spare (Chain.Keeps.advance ?_ _) hlinked hspares fun low hlow => ?_
  · exact h.mono old
  · exact gone low hlow.1 hlow.2

theorem Moves.keeps_next {s s' : Session} {a a' : Chains} {op : Op} {r : Reply} {k : RecordKey}
    {ws : List (Timestamp × Option Payload)} (hm : s.Moves a s' op r a') (hs : s.Stands a)
    (h : (a k).Keeps ws s.Passed) (hws : ∀ w ∈ ws, w.1 ≤ s.engine.clock.last) :
    (a' k).Keeps (ws ++ ((s.installs op r k).map fun i => (i.1, i.2.payload)).toList) s'.Passed :=
  hm.keeps_next_of hs h (fun w hw => hm.passed (hws w hw)) fun _ hlow _ _ hts => hlow.mono hts

end Session

namespace Trace

variable {tr : Trace} {s s' : Session} {a a' : Chains} {op : Op} {r : Reply}

theorem Records.writers_installs (h : tr.Records s) (hm : s.Moves a s' op r a') (k : RecordKey) :
    (tr ++ [Event.mk op r]).writers k =
      tr.writers k ++ ((s.installs op r k).map fun i => (i.1, i.2.payload)).toList := by
  have hsame (hnone : s.installs op r k = none)
      (hwriters : (tr ++ [Event.mk op r]).writers k = tr.writers k) :
      (tr ++ [Event.mk op r]).writers k =
        tr.writers k ++ ((s.installs op r k).map fun i => (i.1, i.2.payload)).toList := by
    rw [hnone, Option.map_none, Option.toList_none, List.append_nil, hwriters]
  have hcommit {id : TxnId} {t : Txn} (active : s.Active id t) (ts : Timestamp) :
      (tr ++ [Event.mk (.commit id) (.committed ts)]).writers k =
        tr.writers k ++ ((s.installs (.commit id) (.committed ts) k).map
          fun i => (i.1, i.2.payload)).toList := by
    rw [h.writers_commit active, installs_commit active, Option.map_map]
    rfl
  cases hm with
  | idle silent =>
    exact hsame (by rw [installs_of_silent s silent]) (writers_of_silent (silent.commit? tr) k)
  | ended silent =>
    exact hsame (by rw [installs_of_silent s silent]) (writers_of_silent (silent.commit? tr) k)
  | began | own | seen | collected => exact hsame rfl (writers_of_silent rfl k)
  | put put =>
    exact hsame (by rw [installs_of_put? s put]) (writers_of_silent (Event.commit?_done _ tr) k)
  | settled active => exact hcommit active _
  | committed active => exact hcommit active _

/-- Every chain is what is left of the writers of its key. -/
def Stored (tr : Trace) (s : Session) (a : Chains) : Prop :=
  ∀ k, (a k).Keeps (tr.writers k) s.Passed

theorem stored_nil (g : Engine) : Stored [] { engine := g } fun _ => [] := fun _ => Chain.keeps_nil

theorem Stored.next (h : tr.Stored s a) (hs : s.Stands a) (hr : tr.Records s) (ho : tr.Ordered s)
    (hm : s.Moves a s' op r a') : (tr ++ [Event.mk op r]).Stored s' a' := by
  intro k
  rw [hr.writers_installs hm]
  exact hm.keeps_next hs (h k) fun w hw => ho.writer_le hw

end Trace

end Mvcc
