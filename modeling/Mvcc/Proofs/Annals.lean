import Mvcc.Proofs.Stored

/-!
# Runs on top of a history

A run may begin on versions that were there before. The chain of a record then holds what is left of
the whole history of the record, and the number of its last version tells how long that history is.

* `Chain.nextNumber`: the number of the version to come, with its rule for the next version.
* `Trace.Annals`: what is true of a run with a history before it, with `Annals.next` and
  `Annals.run`.
* `Annals.latest_eq`: the last version of a key, read off its history.
* `Chain.Holds`, `Annals.exists_holds`: a chain is the end of its history, numbered by place.
* `Tree.Encodes.unique`: a tree stands for one family of chains.
-/

namespace Mvcc

open Session

namespace Chain

variable {c c' : Chain} {v : Version}

/-- The number of the version to come. -/
def nextNumber (c : Chain) : Nat := c.getLast?.elim 0 fun v => v.number.toNat + 1

theorem nextNumber_extend (c : Chain) (v : Version) :
    (c.extend v).nextNumber = v.number.toNat + 1 := by
  rw [nextNumber, getLast?_extend]
  rfl

theorem nextNumber_congr (h : c'.getLast? = c.getLast?) : c'.nextNumber = c.nextNumber := by
  rw [nextNumber, nextNumber, h]

theorem Linked.number_add {l : Chain} (h : Linked l) {n i : Nat}
    (hn : l.nextNumber = n + l.length) (hi : l[i]? = some v) : v.number.toNat = n + i := by
  induction l generalizing n i v with
  | nil => cases hi
  | cons u l ih =>
    obtain _ | ⟨w, l⟩ := l
    · obtain _ | i := i
      · cases hi
        simpa [nextNumber] using hn
      · cases hi
    · obtain ⟨⟨hnumber, -, -⟩, htail⟩ := linked_cons_cons.1 h
      have hnext : Chain.nextNumber (w :: l) = (n + 1) + (w :: l).length := by
        rw [nextNumber, List.getLast?_cons_cons] at hn
        rw [nextNumber, hn, List.length_cons, List.length_cons]
        omega
      obtain _ | i := i
      · cases hi
        have hw := @ih w htail (n + 1) 0 hnext rfl
        omega
      · have hv := @ih v htail (n + 1) i hnext hi
        omega

end Chain

namespace Chains

variable {a : Chains} {k : RecordKey}

theorem Sound.toNat_draft_number (h : a.Sound) (k : RecordKey) (w : Write) :
    (a.draft k w).number.toNat = (a k).nextNumber := by
  rw [draft, (h.linked k).latest?_eq, Chain.nextNumber]
  cases hl : (a k).getLast? with
  | none => rfl
  | some v =>
    have hlt := h.number_lt k v (List.mem_of_getLast? hl)
    rw [UInt64.lt_iff_toNat_lt] at hlt
    have hsize := v.beginTs.toNat_lt
    show (v.number + 1).toNat = v.number.toNat + 1
    rw [UInt64.toNat_add]
    show (v.number.toNat + 1) % 2 ^ 64 = _
    omega

theorem Sound.nextNumber_advance (h : a.Sound) (new : Installs) (k : RecordKey) :
    (a.advance new k).nextNumber = (a k).nextNumber + (new k).toList.length := by
  rw [advance]
  cases new k with
  | none => rfl
  | some i =>
    show ((a k).extend _).nextNumber = _
    rw [Chain.nextNumber_extend]
    exact congrArg (· + 1) (h.toNat_draft_number k i.2)

end Chains

/-- The chain is the end of a history from place `n` on, linked and numbered by place. -/
structure Chain.Holds (l : Chain) (ws : List (Timestamp × Option Payload)) (n : Nat) : Prop where
  marks : l.map Version.mark = ws.drop n
  lt_length : n = 0 ∨ n < ws.length
  linked : l.Linked
  numbers : ∀ i v, l[i]? = some v → v.number.toNat = n + i

theorem Chain.Holds.eq_zero {c : Chain} {ws : List (Timestamp × Option Payload)} {n : Nat}
    (h : c.Holds ws n) (root : ∀ v ∈ c.head?, v.number = 0) : n = 0 := by
  refine h.lt_length.elim id fun hlt => ?_
  cases c with
  | nil => exact absurd (List.drop_eq_nil_iff.1 h.marks.symm) (Nat.not_le.2 hlt)
  | cons v c =>
    have hnumber := h.numbers 0 v rfl
    rw [root v rfl] at hnumber
    exact hnumber.symm

/-- When every key was written, and what was left under it. -/
abbrev History := RecordKey → List (Timestamp × Option Payload)

namespace Trace

/-- What is true of a run that has the history `past` before it. -/
structure Annals (past : History) (tr : Trace) (s : Session) (a : Chains) : Prop where
  stands : s.Stands a
  records : tr.Records s
  kept : ∀ k, (a k).Keeps (past k ++ tr.writers k) s.Passed
  counted : ∀ k, (a k).nextNumber = (past k ++ tr.writers k).length
  ascending : ∀ k, (past k ++ tr.writers k).Pairwise fun w w' => w.1 < w'.1
  writer_le : ∀ k, ∀ w ∈ past k ++ tr.writers k, w.1 ≤ s.engine.clock.last

variable {past : History} {tr : Trace} {s s' : Session} {a a' : Chains} {op : Op} {r : Reply}
  {k : RecordKey}

theorem annals_nil {g : Engine} (encodes : g.store.tree.Encodes a) (sound : a.Sound)
    (lastId : g.lastId = 0) (kept : ∀ k, (a k).Keeps (past k) fun _ => True)
    (counted : ∀ k, (a k).nextNumber = (past k).length)
    (ascending : ∀ k, (past k).Pairwise fun w w' => w.1 < w'.1)
    (writer_le : ∀ k, ∀ w ∈ past k, w.1 ≤ g.clock.last) : Annals past [] g.session a := by
  have hnil : ∀ k, past k ++ Trace.writers [] k = past k := fun k => List.append_nil _
  refine ⟨stands_session encodes sound, records_nil g lastId, fun k => ?_, fun k => ?_,
    fun k => ?_, fun k => ?_⟩
  all_goals rw [hnil]
  · refine (kept k).mono fun _ _ _ i t ht => ?_
    cases ht.1
  · exact counted k
  · exact ascending k
  · exact writer_le k

theorem Annals.counted_next (h : tr.Annals past s a) (hm : s.Moves a s' op r a') (k : RecordKey) :
    (a' k).nextNumber = (past k ++ (tr ++ [Event.mk op r]).writers k).length := by
  obtain ⟨hlinked, hspares⟩ := hm.chain_next h.stands k
  rw [Chain.nextNumber_congr (hspares.getLast?_eq hlinked), h.stands.sound.nextNumber_advance,
    h.counted k, h.records.writers_installs hm, ← List.append_assoc]
  generalize past k ++ tr.writers k = before
  rw [List.length_append]
  cases s.installs op r k <;> rfl

theorem Annals.next (h : tr.Annals past s a) (hm : s.Moves a s' op r a') (hop : op.Fits) :
    (tr ++ [Event.mk op r]).Annals past s' a' := by
  refine ⟨hm.stands h.stands hop, h.records.next hm, fun k => ?_, h.counted_next hm,
    fun k => ?_, fun k w hw => ?_⟩
  · rw [h.records.writers_installs hm, ← List.append_assoc]
    exact hm.keeps_next h.stands (h.kept k) (h.writer_le k)
  all_goals rcases h.records.writers_next hm k with he | ⟨p, he, hlt⟩
  · rw [he]
    exact h.ascending k
  · rw [he, ← List.append_assoc, List.pairwise_append]
    refine ⟨h.ascending k, List.pairwise_singleton _ _, fun w hw w' hw' => ?_⟩
    rw [List.mem_singleton.1 hw']
    have hle := h.writer_le k w hw
    show w.1 < s'.engine.clock.last
    grind
  · rw [he] at hw
    exact UInt64.le_trans (h.writer_le k w hw) hm.clock_le
  · rw [he, ← List.append_assoc, List.mem_append] at hw
    rcases hw with hw | hw
    · exact UInt64.le_trans (h.writer_le k w hw) hm.clock_le
    · rw [List.mem_singleton.1 hw]
      exact UInt64.le_refl _

/-- A run carries the annals on. Whatever it writes is later than all that was before. -/
theorem Annals.run (h : tr.Annals past s a) (ops : List Op) (hops : ∀ op ∈ ops, op.Fits) :
    ∃ a', (tr ++ s.trace ops).Annals past (s.run ops).2 a' ∧
      s.engine.clock.last ≤ (s.run ops).2.engine.clock.last ∧
      ∀ k, ∃ more, (tr ++ s.trace ops).writers k = tr.writers k ++ more ∧
        ∀ w ∈ more, s.engine.clock.last < w.1 := by
  induction ops generalizing tr s a with
  | nil =>
    rw [show s.trace [] = [] from rfl, List.append_nil]
    exact ⟨a, h, UInt64.le_refl _, fun k => ⟨[], (List.append_nil _).symm, by simp⟩⟩
  | cons op rest ih =>
    have hop := hops op List.mem_cons_self
    obtain ⟨a₁, hm⟩ := exists_moves h.stands hop
    obtain ⟨a', ha', hclock, hmore⟩ := ih (h.next hm hop) fun op' hop' =>
      hops op' (List.mem_cons_of_mem _ hop')
    rw [List.append_assoc] at ha' hmore
    refine ⟨a', ha', UInt64.le_trans hm.clock_le hclock, fun k => ?_⟩
    obtain ⟨more, he, hlate⟩ := hmore k
    have hlate' : ∀ w ∈ more, s.engine.clock.last < w.1 := fun w hw => by
      have hle := hm.clock_le
      have hlt := hlate w hw
      grind
    rcases h.records.writers_next hm k with hnext | ⟨p, hnext, hlt⟩
    · rw [hnext] at he
      exact ⟨more, he, hlate'⟩
    · rw [hnext, List.append_assoc] at he
      refine ⟨_, he, fun w hw => ?_⟩
      rcases List.mem_cons.1 hw with rfl | hw
      · exact hlt
      · exact hlate' w hw

theorem Annals.latest_eq (h : tr.Annals past s a) (k : RecordKey) :
    (a k).latest? = (past k ++ tr.writers k).getLast?.map fun w =>
      { key := k, number := .ofNat ((past k ++ tr.writers k).length - 1), payload := w.2,
        beginTs := w.1 } := by
  have hlinked := h.stands.sound.linked k
  have hcounted := h.counted k
  rw [hlinked.latest?_eq, ← (h.kept k).getLast?_eq, ← hcounted, Chain.nextNumber]
  cases hl : (a k).getLast? with
  | none => rfl
  | some v =>
    have hkey := h.stands.encodes.key_eq k v (List.mem_of_getLast? hl)
    have hopen := hlinked.open_last v hl
    have hnumber : UInt64.ofNat (v.number.toNat + 1 - 1) = v.number := by
      rw [Nat.add_sub_cancel, UInt64.ofNat_toNat]
    rw [Option.elim_some, hnumber, ← hkey]
    cases v
    cases hopen
    rfl

theorem Annals.exists_holds (h : tr.Annals past s a) (k : RecordKey) :
    ∃ n, (a k).Holds (past k ++ tr.writers k) n := by
  obtain ⟨n, hmarks, hlast, -⟩ := h.kept k
  have hcounted := h.counted k
  have hlinked := h.stands.sound.linked k
  generalize past k ++ tr.writers k = ws at hmarks hlast hcounted
  by_cases hnil : ws = []
  · rw [hnil, List.drop_nil, List.map_eq_nil_iff] at hmarks
    refine ⟨0, ?_, Or.inl rfl, hlinked, fun i v hv => ?_⟩
    · rw [hmarks, hnil]
      rfl
    · rw [hmarks] at hv
      cases hv
  · have hn := hlast hnil
    have hlength : (a k).nextNumber = n + (a k).length := by
      rw [hcounted, ← List.length_map (f := Version.mark), hmarks, List.length_drop]
      omega
    exact ⟨n, hmarks, Or.inr hn, hlinked, fun i v => hlinked.number_add hlength⟩

theorem Annals.toNat_draft_number (h : tr.Annals past s a) (k : RecordKey) (w : Write) :
    (a.draft k w).number.toNat = (past k ++ tr.writers k).length := by
  rw [h.stands.sound.toNat_draft_number, h.counted]

end Trace

theorem Tree.Encodes.unique {t : Tree} {a a' : Chains} (h : t.Encodes a) (h' : t.Encodes a') :
    a = a' := by
  have hmem {a a' : Chains} (h : t.Encodes a) (h' : t.Encodes a') {k : RecordKey} {v : Version}
      (hv : v ∈ a k) : v ∈ a' k := by
    obtain ⟨k', u, hu, he⟩ := (h'.mem_iff v.entry).1 ((h.mem_iff _).2 ⟨k, v, hv, rfl⟩)
    obtain rfl := Version.entry_inj (h.fits k v hv) (h'.fits k' u hu) he
    rwa [← h'.key_eq k' v hu, h.key_eq k v hv] at hu
  have hnodup {c : Chain} (hc : c.Pairwise fun u v => u.number < v.number) : c.Nodup :=
    hc.imp fun {u v} hlt he => UInt64.ne_of_lt hlt (congrArg Version.number he)
  funext k
  refine List.Perm.eq_of_pairwise (fun u v _ _ huv hvu => ?_) (h.ascending k) (h'.ascending k)
    ((List.perm_ext_iff_of_nodup (hnodup (h.ascending k)) (hnodup (h'.ascending k))).2
      fun v => ⟨hmem h h', hmem h' h⟩)
  exact absurd (UInt64.lt_trans huv hvu) (UInt64.lt_irrefl _)

end Mvcc
