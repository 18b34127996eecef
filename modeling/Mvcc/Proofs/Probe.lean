import Mathlib.Data.List.Basic
import Mathlib.Tactic.SplitIfs
import Mvcc.Validation

/-!
# What a probe answers

A probe reads a tree on which calls may fail. `Answers p t x` says that on the tree `t` the probe
`p` comes to `x`: under every plan it comes to `x`, or one of its calls fails and it comes to an
error. The rules compose along the monad, so a probe is opened once and then only spoken of through
its answer.

* `Plan.Serves`: no call between two counts fails.
* `Answers.bind`, `Answers.map`, `answers_items`: the rules.
* `answers_firstSome`, `answers_mapValuesM`: probes over the entries of a map.
-/

namespace Mvcc

instance : LE Tally := ⟨fun t t' => ∀ c, t.get c ≤ t'.get c⟩

theorem Tally.le_refl (t : Tally) : t ≤ t := fun _ => Nat.le_refl _

theorem Tally.le_trans {t t' t'' : Tally} (h : t ≤ t') (h' : t' ≤ t'') : t ≤ t'' :=
  fun c => Nat.le_trans (h c) (h' c)

theorem Tally.get_step (t : Tally) (c c' : Call) :
    (t.step c).get c' = if c' = c then t.get c + 1 else t.get c' := by
  cases c <;> cases c' <;> rfl

theorem Tally.le_step (t : Tally) (c : Call) : t ≤ t.step c := by
  intro c'
  rw [get_step]
  split_ifs with hc
  · rw [hc]
    exact Nat.le_succ _
  · exact Nat.le_refl _

/-- No call between two counts fails. -/
def Plan.Serves (plan : Plan) (before after : Tally) : Prop :=
  ∀ c n, before.get c ≤ n → n < after.get c → plan c n = .serve

variable {plan : Plan} {before middle after : Tally}

/-- All kinds of calls. -/
def Call.all : List Call := [insert, iterate, scanPrefix, applyBatch, count, flush]

theorem Call.mem_all (c : Call) : c ∈ all := by cases c <;> decide

instance (v : Verdict) : Decidable (v = .serve) :=
  match v with
  | .serve => isTrue rfl
  | .fail _ | .spoil .. => isFalse Verdict.noConfusion

instance : Decidable (plan.Serves before after) :=
  decidable_of_iff
    (∀ c ∈ Call.all, ∀ n < after.get c, before.get c ≤ n → plan c n = .serve)
    ⟨fun h c n hle hlt => h c c.mem_all n hlt hle, fun h c _ n hlt hle => h c n hle hlt⟩

theorem Plan.Serves.second (h : plan.Serves before after) (hle : before ≤ middle) :
    plan.Serves middle after :=
  fun c n hn hlt => h c n (Nat.le_trans (hle c) hn) hlt

theorem Plan.Serves.first (h : plan.Serves before after) (hle : middle ≤ after) :
    plan.Serves before middle :=
  fun c n hn hlt => h c n hn (Nat.lt_of_lt_of_le hlt (hle c))

theorem Plan.Serves.step {tally : Tally} {c : Call} (h : plan.Serves tally (tally.step c)) :
    plan c (tally.get c) = .serve := by
  refine h c _ (Nat.le_refl _) ?_
  rw [Tally.get_step, if_pos rfl]
  exact Nat.lt_succ_self _

namespace Probe

variable {α β : Type}

/-- Runs a probe on a device, with the calls made before. -/
def exec (p : Probe α) (d : Device) (tally : Tally) : Except StoreError α × Tally :=
  (p.run d).run.run tally

theorem exec_bind (p : Probe α) (f : α → Probe β) (d : Device) (tally : Tally) :
    (p >>= f).exec d tally = match p.exec d tally with
      | (.ok a, tally) => (f a).exec d tally
      | (.error e, tally) => (.error e, tally) := by
  rw [exec, ReaderT.run_bind, ExceptT.run_bind, StateT.run_bind]
  rcases h : p.exec d tally with ⟨_ | a, tally'⟩
  all_goals
    rw [exec] at h
    rw [h]
    rfl

/-- What one run of a probe comes to, when it should come to `x`. -/
structure Comes (plan : Plan) (tally : Tally) (out : Except StoreError α × Tally)
    (x : Except StoreError α) : Prop where
  le : tally ≤ out.2
  eq_or_error : out.1 = x ∨ (∃ e, out.1 = .error e) ∧ ¬ plan.Serves tally out.2

/-- On the tree `t` the probe comes to `x`, unless a call fails. -/
def Answers (p : Probe α) (t : Tree) (x : Except StoreError α) : Prop :=
  ∀ plan tally, Comes plan tally (p.exec { tree := t, plan } tally) x

variable {t : Tree}

theorem answers_pure (a : α) : Answers (pure a) t (.ok a) :=
  fun _ tally => ⟨tally.le_refl, Or.inl rfl⟩

theorem Answers.bind {p : Probe α} {f : α → Probe β} {a : α} {x : Except StoreError β}
    (hp : Answers p t (.ok a)) (hf : Answers (f a) t x) : Answers (p >>= f) t x := by
  intro plan tally
  rw [exec_bind]
  obtain ⟨hle, hp⟩ := hp plan tally
  rcases hr : p.exec { tree := t, plan } tally with ⟨r, tally'⟩
  rw [hr] at hle hp
  rcases hp with h | ⟨⟨e, h⟩, hserves⟩
  · obtain rfl : r = .ok a := h
    obtain ⟨hle', hf⟩ := hf plan tally'
    refine ⟨Tally.le_trans hle hle', hf.imp_right fun ⟨he, hserves⟩ => ⟨he, fun hs => ?_⟩⟩
    exact hserves (hs.second hle)
  · obtain rfl : r = .error e := h
    exact ⟨hle, Or.inr ⟨⟨e, rfl⟩, hserves⟩⟩

theorem answers_throw (e : StoreError) : Answers (throw e : Probe α) t (.error e) :=
  fun _ tally => ⟨tally.le_refl, Or.inl rfl⟩

theorem Answers.bind_error {p : Probe α} {e : StoreError} (hp : Answers p t (.error e))
    (f : α → Probe β) : Answers (p >>= f) t (.error e) := by
  intro plan tally
  rw [exec_bind]
  obtain ⟨hle, hp⟩ := hp plan tally
  rcases hr : p.exec { tree := t, plan } tally with ⟨r, tally'⟩
  rw [hr] at hle hp
  rcases hp with h | ⟨⟨e', h⟩, hserves⟩
  · obtain rfl : r = .error e := h
    exact ⟨hle, Or.inl rfl⟩
  · obtain rfl : r = .error e' := h
    exact ⟨hle, Or.inr ⟨⟨e', rfl⟩, hserves⟩⟩

theorem Answers.map {p : Probe α} {a : α} (hp : Answers p t (.ok a)) (f : α → β) :
    Answers (do return f (← p)) t (.ok (f a)) :=
  hp.bind (answers_pure (f a))

theorem exec_ofExcept (x : Except StoreError α) (d : Device) (tally : Tally) :
    (ofExcept x).exec d tally = (x, tally) := by
  cases x <;> rfl

theorem exec_items (c : Call) (entries : Tree → List (Bytes × Bytes)) (plan : Plan)
    (tally : Tally) :
    (items c entries).exec { tree := t, plan } tally =
      (match plan c (tally.get c) with
        | .serve => .ok ((entries t).map .ok)
        | .fail e => .error e
        | .spoil place e => .ok (((entries t).map .ok).set place (.error e)), tally.step c) := by
  show (match plan c (tally.get c) with | .serve => _ | .fail e => _ | .spoil place e => _ :
    Probe (List Item)).exec _ (tally.step c) = _
  cases plan c (tally.get c) <;> rfl

/-- A walk whose items are put to use by `f`. In place of an item there may be an error, so `f` must
not take such a list for another one. -/
theorem answers_items (c : Call) (entries : Tree → List (Bytes × Bytes))
    (f : List Item → Except StoreError α)
    (hf : ∀ place e, f (((entries t).map .ok).set place (.error e)) = f ((entries t).map .ok) ∨
      ∃ e', f (((entries t).map .ok).set place (.error e)) = .error e') :
    Answers (do ofExcept (f (← items c entries))) t (f ((entries t).map .ok)) := by
  intro plan tally
  have hfail : plan c (tally.get c) ≠ .serve → ¬ plan.Serves tally (tally.step c) :=
    fun hne hs => hne hs.step
  rw [exec_bind, exec_items]
  cases hv : plan c (tally.get c) with
  | serve =>
    simp only [exec_ofExcept]
    exact ⟨tally.le_step c, Or.inl rfl⟩
  | fail e => exact ⟨tally.le_step c, Or.inr ⟨⟨e, rfl⟩, hfail (by simp [hv])⟩⟩
  | spoil place e =>
    simp only [exec_ofExcept]
    exact ⟨tally.le_step c, (hf place e).imp_right fun he => ⟨he, hfail (by simp [hv])⟩⟩

/-! ## Decoding the items of a walk -/

theorem decodeAll_cons (item : Item) (rest : List Item) :
    decodeAll (item :: rest) = item.version.bind fun v => (decodeAll rest).map (v :: ·) := by
  rw [decodeAll, List.mapM_cons]
  cases item.version with
  | error e => rfl
  | ok v =>
    show (decodeAll rest >>= fun vs => pure (v :: vs)) = (decodeAll rest).map (v :: ·)
    cases decodeAll rest <;> rfl

theorem decodeAll_set (found : List Item) (place : Nat) (e : StoreError) :
    decodeAll (found.set place (.error e)) = decodeAll found ∨
      ∃ e', decodeAll (found.set place (.error e)) = .error e' := by
  induction found generalizing place with
  | nil => exact Or.inl rfl
  | cons item rest ih =>
    cases place with
    | zero =>
      rw [List.set_cons_zero, decodeAll_cons]
      exact Or.inr ⟨e, rfl⟩
    | succ place =>
      rw [List.set_cons_succ, decodeAll_cons, decodeAll_cons]
      cases item.version with
      | error e' => exact Or.inl rfl
      | ok v =>
        rcases ih place with h | ⟨e', h⟩
        · rw [h]
          exact Or.inl rfl
        · rw [h]
          exact Or.inr ⟨e', rfl⟩

theorem answers_chain (t : Tree) (k : RecordKey) :
    Answers (chain k) t ((decodeAll ((t.scanPrefix k.encode).map .ok)).map fun found =>
      found.map (·.2)) := by
  have hall := answers_items (t := t) .scanPrefix (·.scanPrefix k.encode) decodeAll (decodeAll_set _)
  have hassoc : chain k = (do ofExcept (decodeAll (← scanPrefix k.encode))) >>= fun found =>
      pure (found.map (·.2)) := (bind_assoc _ _ _).symm
  rw [hassoc]
  cases hfound : decodeAll ((t.scanPrefix k.encode).map .ok) with
  | ok found =>
    rw [hfound] at hall
    exact hall.map _
  | error e =>
    rw [hfound] at hall
    exact hall.bind_error _

/-- An error among the items is the answer, unless something visible stands before it. -/
theorem firstVisible?_set (ts : Timestamp) (found : List Item) (place : Nat) (e : StoreError) :
    firstVisible? ts (found.set place (.error e)) = firstVisible? ts found ∨
      ∃ e', firstVisible? ts (found.set place (.error e)) = .error e' := by
  induction found generalizing place with
  | nil => exact Or.inl rfl
  | cons item rest ih =>
    cases place with
    | zero => exact Or.inr ⟨e, rfl⟩
    | succ place =>
      rw [List.set_cons_succ, firstVisible?, firstVisible?]
      rcases item.version with e' | ⟨p, v⟩
      · exact Or.inl rfl
      · simp only [bind, Except.bind]
        split_ifs
        · exact Or.inl rfl
        · exact ih place

/-! ## Probes over the entries of a map -/

theorem answers_firstSome {ask : α → Probe (Option β)} {g : α → Option β} {l : List α}
    (h : ∀ a ∈ l, Answers (ask a) t (.ok (g a))) :
    Answers (firstSome ask l) t (.ok (l.findSome? g)) := by
  induction l with
  | nil => exact answers_pure none
  | cons a rest ih =>
    refine (h a List.mem_cons_self).bind ?_
    rw [List.findSome?_cons]
    cases g a with
    | some b => exact answers_pure (some b)
    | none => exact ih fun a ha => h a (List.mem_cons_of_mem _ ha)

theorem answers_mapEntriesM {κ γ : Type} {f : κ → α → Probe γ} {g : κ → α → γ}
    {entries : List (κ × α)} (h : ∀ e ∈ entries, Answers (f e.1 e.2) t (.ok (g e.1 e.2))) :
    Answers (OrderedMap.mapEntriesM f entries) t
      (.ok ⟨entries.map fun e => (e.1, g e.1 e.2), by simp⟩) := by
  induction entries with
  | nil => exact answers_pure _
  | cons e rest ih =>
    refine (h e List.mem_cons_self).bind ?_
    exact (ih fun e he => h e (List.mem_cons_of_mem _ he)).bind (answers_pure _)

theorem answers_mapValuesM {κ γ : Type} [Ord κ] {f : κ → α → Probe γ} {g : κ → α → γ}
    (m : OrderedMap κ α) (h : ∀ e ∈ m.toList, Answers (f e.1 e.2) t (.ok (g e.1 e.2))) :
    Answers (m.mapValuesM f) t (.ok (m.mapValues g)) :=
  (answers_mapEntriesM h).bind (answers_pure _)

end Probe

end Mvcc
