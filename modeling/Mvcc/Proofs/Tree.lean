import Mvcc.Proofs.OrderedMap
import Mvcc.Bytes.Word
import Mvcc.Tree

/-!
# Prefix scans

* `compare_append`, `compare_big`: the order of byte strings with a common beginning, and of numbers
  written most significant byte first.
* `prefix_of_between`: strings with a common beginning lie side by side.
* `scanPrefix_eq_filter`: a scan finds all entries whose key has the beginning, and no others.
-/

namespace Mvcc

open Std

/-! ## The order of byte strings -/

namespace Bytes

theorem compare_cons (a b : UInt8) (x y : Bytes) :
    compare (a :: x) (b :: y) = (compare a b).then (compare x y) :=
  List.compareLex_cons_cons

theorem compare_append (p x y : Bytes) : compare (p ++ x) (p ++ y) = compare x y := by
  induction p with
  | nil => rfl
  | cons a p ih =>
    have hself : compare a a = .eq := ReflCmp.compare_self
    rw [List.cons_append, List.cons_append, compare_cons, ih, hself]
    rfl

theorem compare_snoc (x y : Bytes) (a b : UInt8) (h : x.length = y.length) :
    compare (x ++ [a]) (y ++ [b]) = (compare x y).then (compare a b) := by
  induction x generalizing y with
  | nil =>
    obtain rfl : y = [] := List.length_eq_zero_iff.1 h.symm
    show compare [a] [b] = _
    rw [compare_cons]
    cases compare a b <;> rfl
  | cons c x ih =>
    obtain _ | ⟨d, y⟩ := y
    · cases h
    · rw [List.cons_append, List.cons_append, compare_cons, compare_cons, ih y (by simpa using h)]
      cases compare c d <;> rfl

theorem compare_toNat (a b : UInt8) : compare a b = compare a.toNat b.toNat := by
  rcases Nat.lt_trichotomy a.toNat b.toNat with h | h | h
  · rw [Std.compare_eq_lt.2 h, Std.compare_eq_lt.2 (UInt8.lt_iff_toNat_lt.2 h)]
  · rw [Nat.compare_eq_eq.2 h, UInt8.toNat_inj.1 h]
    exact ReflCmp.compare_self
  · rw [Std.compare_eq_gt.2 h, Std.compare_eq_gt.2 (UInt8.lt_iff_toNat_lt.2 h)]

theorem compare_big (n a b : Nat) (ha : a < limit n) (hb : b < limit n) :
    compare (big n a) (big n b) = compare a b := by
  induction n generalizing a b with
  | zero =>
    obtain rfl : a = 0 := by simpa [limit] using ha
    obtain rfl : b = 0 := by simpa [limit] using hb
    rfl
  | succ n ih =>
    rw [limit] at ha hb
    have hstep (v : Nat) : big (n + 1) v = big n (v / 256) ++ [UInt8.ofNat v] := by
      simp [big, little]
    rw [hstep, hstep, compare_snoc _ _ _ _ (by simp), ih _ _ (by omega) (by omega), compare_toNat,
      UInt8.toNat_ofNat', UInt8.toNat_ofNat']
    rcases Nat.lt_trichotomy (a / 256) (b / 256) with h | h | h
    · rw [Nat.compare_eq_lt.2 h, Ordering.lt_then, eq_comm, Nat.compare_eq_lt]
      omega
    · rw [Nat.compare_eq_eq.2 h, Ordering.eq_then]
      rcases Nat.lt_trichotomy (a % 256) (b % 256) with h' | h' | h'
      · rw [Nat.compare_eq_lt.2 h', eq_comm, Nat.compare_eq_lt]
        omega
      · rw [Nat.compare_eq_eq.2 h', eq_comm, Nat.compare_eq_eq]
        omega
      · rw [Nat.compare_eq_gt.2 h', eq_comm, Nat.compare_eq_gt]
        omega
    · rw [Nat.compare_eq_gt.2 h, Ordering.gt_then, eq_comm, Nat.compare_eq_gt]
      omega

theorem not_lt_of_prefix {p x : Bytes} (h : p <+: x) : compare x p ≠ .lt := by
  obtain ⟨r, rfl⟩ := h
  intro hlt
  have := compare_append p r []
  rw [List.append_nil, hlt] at this
  cases r <;> cases this

/-- What lies between a beginning and a string that has it, has it too. -/
theorem prefix_of_between {p x y : Bytes} (hpx : compare x p ≠ .lt) (hxy : compare x y = .lt)
    (hpy : p <+: y) : p <+: x := by
  induction p generalizing x y with
  | nil => exact List.nil_prefix
  | cons c p ih =>
    obtain _ | ⟨b, y⟩ := y
    · cases List.prefix_nil.1 hpy
    obtain ⟨rfl, hrest⟩ := List.cons_prefix_cons.1 hpy
    obtain _ | ⟨a, x⟩ := x
    · exact absurd rfl hpx
    rw [compare_cons] at hpx hxy
    obtain rfl : a = c := by
      cases hac : compare a c
      · rw [hac] at hpx
        exact absurd rfl hpx
      · exact LawfulEqCmp.eq_of_compare hac
      · rw [hac] at hxy
        cases hxy
    have hself : compare a a = .eq := ReflCmp.compare_self
    rw [hself] at hpx hxy
    exact List.cons_prefix_cons.2 ⟨rfl, ih hpx hxy hrest⟩

end Bytes

/-! ## The scan -/

namespace Tree

theorem stretch_eq_filter (p : Bytes) {entries : List (Bytes × Bytes)} (h : Ascending entries) :
    (entries.dropWhile fun e => compare e.1 p == .lt).takeWhile (fun e => p.isPrefixOf e.1) =
      entries.filter fun e => p.isPrefixOf e.1 := by
  induction entries with
  | nil => rfl
  | cons e rest ih =>
    obtain ⟨hhead, hrest⟩ := List.pairwise_cons.1 h
    by_cases hlt : compare e.1 p = .lt
    · have hno : p.isPrefixOf e.1 = false := by
        rw [Bool.eq_false_iff, Ne, List.isPrefixOf_iff_prefix]
        exact fun hp => Bytes.not_lt_of_prefix hp hlt
      rw [List.dropWhile_cons_of_pos (by simp [hlt]), List.filter_cons_of_neg (by simp [hno])]
      exact ih hrest
    · rw [List.dropWhile_cons_of_neg (by simp [hlt])]
      by_cases hp : p.isPrefixOf e.1 = true
      · simp only [List.takeWhile_cons, List.filter_cons, hp, if_true, ← ih hrest]
        congr 1
        obtain _ | ⟨f, rest⟩ := rest
        · rfl
        have hf : compare f.1 p ≠ .lt := fun hf =>
          hlt (TransCmp.lt_trans (hhead f List.mem_cons_self) hf)
        rw [List.dropWhile_cons_of_neg (by simp [hf])]
      · simp only [List.takeWhile_cons, List.filter_cons, hp, Bool.false_eq_true, if_false]
        rw [eq_comm, List.filter_eq_nil_iff]
        intro f hf hpf
        rw [List.isPrefixOf_iff_prefix] at hp hpf
        exact hp (Bytes.prefix_of_between hlt (hhead f hf) hpf)

theorem scanPrefix_eq_filter (t : Tree) (p : Bytes) :
    t.scanPrefix p = t.toList.filter fun e => p.isPrefixOf e.1 :=
  stretch_eq_filter p t.ascending

end Tree

end Mvcc
