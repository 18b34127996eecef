import Mvcc.Bytes.Basic

/-!
# Record keys

A record is named by its table and a key value in it. Keys are ordered by table, then integers
before texts before byte strings.

* `KeyValue`, `RecordKey`: the names, with a lawful order.
* `RecordKey.display`: the form that messages show.
-/

namespace Mvcc

open Std

/-- What names a record within its table. -/
inductive KeyValue where
  | int (n : Int64)
  | text (s : String)
  | bytes (b : Bytes)
  deriving DecidableEq

instance : Inhabited KeyValue := ⟨.int 0⟩

namespace KeyValue

/-- Integers come first, then texts, then byte strings. -/
def order : KeyValue → KeyValue → Ordering
  | int a, int b => compare a b
  | int _, _ => .lt
  | _, int _ => .gt
  | text a, text b => compare a b
  | text _, bytes _ => .lt
  | bytes _, text _ => .gt
  | bytes a, bytes b => compare a b

instance : Ord KeyValue := ⟨order⟩

theorem order_swap (a b : KeyValue) : order a b = (order b a).swap := by
  match a, b with
  | int x, int y => exact (OrientedCmp.eq_swap : compare x y = _)
  | text x, text y => exact (OrientedCmp.eq_swap : compare x y = _)
  | bytes x, bytes y => exact (OrientedCmp.eq_swap : compare x y = _)
  | int _, text _ | int _, bytes _ | text _, int _ | text _, bytes _ | bytes _, int _
  | bytes _, text _ => rfl

theorem order_trans {a b c : KeyValue} (hab : (order a b).isLE) (hbc : (order b c).isLE) :
    (order a c).isLE := by
  match a, b, c with
  | int x, int y, int z =>
    have hxy : (compare x y).isLE := hab
    have hyz : (compare y z).isLE := hbc
    exact (TransCmp.isLE_trans hxy hyz : (compare x z).isLE)
  | text x, text y, text z =>
    have hxy : (compare x y).isLE := hab
    have hyz : (compare y z).isLE := hbc
    exact (TransCmp.isLE_trans hxy hyz : (compare x z).isLE)
  | bytes x, bytes y, bytes z =>
    have hxy : (compare x y).isLE := hab
    have hyz : (compare y z).isLE := hbc
    exact (TransCmp.isLE_trans hxy hyz : (compare x z).isLE)
  | int _, _, text _ | int _, _, bytes _ | text _, _, bytes _ => rfl
  | text _, int _, _ | bytes _, int _, _ | bytes _, text _, _ => exact Bool.noConfusion hab
  | _, text _, int _ | _, bytes _, int _ | _, bytes _, text _ => exact Bool.noConfusion hbc

theorem eq_of_order {a b : KeyValue} (h : order a b = .eq) : a = b := by
  match a, b with
  | int x, int y =>
    have h' : compare x y = .eq := h
    exact congrArg int (LawfulEqCmp.eq_of_compare h')
  | text x, text y =>
    have h' : compare x y = .eq := h
    exact congrArg text (LawfulEqCmp.eq_of_compare h')
  | bytes x, bytes y =>
    have h' : compare x y = .eq := h
    exact congrArg bytes (LawfulEqCmp.eq_of_compare h')
  | int _, text _ | int _, bytes _ | text _, int _ | text _, bytes _ | bytes _, int _
  | bytes _, text _ => exact Ordering.noConfusion h

instance : TransOrd KeyValue where
  eq_swap := order_swap _ _
  isLE_trans := order_trans

instance : LawfulEqOrd KeyValue where
  compare_self {a} := by
    have h := order_swap a a
    show order a a = .eq
    cases hc : order a a <;> simp [hc] at h ⊢
  eq_of_compare := eq_of_order

/-- Integers in decimal, texts as they are, byte strings as `0x` and hexadecimal digits. -/
def display : KeyValue → String
  | int n => toString n.toInt
  | text s => s
  | bytes b => "0x" ++ b.toHex

end KeyValue

/-- The name of a record: a table and a key value in it. -/
structure RecordKey where
  table : String
  key : KeyValue
  deriving DecidableEq, Inhabited

namespace RecordKey

instance : Ord RecordKey := ⟨compareLex (compareOn table) (compareOn key)⟩

instance : TransOrd RecordKey :=
  inferInstanceAs (TransCmp (compareLex (compareOn table) (compareOn key)))

instance : LawfulEqOrd RecordKey where
  eq_of_compare {a b} h := by
    obtain ⟨t, k⟩ := a
    obtain ⟨t', k'⟩ := b
    have h' : compare t t' = .eq ∧ compare k k' = .eq := compareLex_eq_eq.1 h
    rw [LawfulEqCmp.eq_of_compare h'.1, LawfulEqCmp.eq_of_compare h'.2]

def display (k : RecordKey) : String := k.table ++ ":" ++ k.key.display

end RecordKey

end Mvcc
