import Mathlib.Data.List.Basic
import Mathlib.Algebra.Group.Nat.Defs
import Mathlib.Tactic.TypeStar

/-!
# Records in a stream, and numbers in a record

A stream has no marks: its records are what is read one after the other, as many as are
complete. A number is its bytes, the lowest one first. A record that is read into memory
replaces the memory's first bytes, as many as there are.
-/

namespace Ambix.Lib

section

variable {α : Type*} {n : Nat} {xs : List α}

/-- The complete records of `n` items, one after the other. -/
def records (n : Nat) (xs : List α) : List (List α) :=
  (List.range (xs.length / n)).map fun i => (xs.drop (i * n)).take n

theorem records_of_lt (h : xs.length < n) : records n xs = [] := by
  rw [records, Nat.div_eq_of_lt h]
  rfl

/-- The first record. -/
theorem records_append {record : List α} (hn : 0 < n) (h : record.length = n) (xs : List α) :
    records n (record ++ xs) = record :: records n xs := by
  have hlen : (record ++ xs).length / n = xs.length / n + 1 := by
    rw [List.length_append, h, Nat.add_comm, Nat.add_div_right _ hn]
  unfold records
  rw [hlen, List.range_succ_eq_map, List.map_cons, List.map_map, Nat.zero_mul, List.drop_zero]
  refine congrArg₂ List.cons (List.take_left' h) ?_
  apply List.map_congr_left
  intro i _
  have hdrop : (record ++ xs).drop ((i + 1) * n) = xs.drop (i * n) := by
    rw [Nat.succ_mul, Nat.add_comm, ← List.drop_drop, List.drop_left' h]
  simp only [Function.comp_apply, hdrop]

/-- A stream of complete records has these records. -/
theorem records_flatten {pieces : List (List α)} (hn : 0 < n) (h : ∀ p ∈ pieces, p.length = n) :
    records n pieces.flatten = pieces := by
  induction pieces with
  | nil => exact records_of_lt hn
  | cons p pieces ih =>
    rw [List.flatten_cons, records_append hn (h p List.mem_cons_self),
      ih fun q hq => h q (List.mem_cons_of_mem _ hq)]

end

/-! ## Numbers -/

/-- The lowest `k` bytes of a number. -/
def leBytes : Nat → Nat → List UInt8
  | 0, _ => []
  | k + 1, n => UInt8.ofNat n :: leBytes k (n / 256)

/-- The number that bytes stand for. -/
def ofLeBytes : List UInt8 → Nat
  | [] => 0
  | b :: bytes => b.toNat + 256 * ofLeBytes bytes

theorem length_leBytes (k n : Nat) : (leBytes k n).length = k := by
  induction k generalizing n with
  | zero => rfl
  | succ k ih => rw [leBytes, List.length_cons, ih]

theorem ofLeBytes_leBytes {k n : Nat} (h : n < 256 ^ k) : ofLeBytes (leBytes k n) = n := by
  induction k generalizing n with
  | zero =>
    rw [Nat.pow_zero] at h
    exact (Nat.lt_one_iff.mp h).symm
  | succ k ih =>
    have hrest : n / 256 < 256 ^ k := by
      rw [Nat.pow_succ] at h
      exact Nat.div_lt_of_lt_mul (by rwa [Nat.mul_comm])
    rw [leBytes, ofLeBytes, ih hrest, UInt8.toNat_ofNat']
    omega

/-- The number in `k` bytes from offset `i` on. -/
def field (i k : Nat) (bytes : List UInt8) : Nat := ofLeBytes ((bytes.drop i).take k)

theorem field_leBytes {k n : Nat} (h : n < 256 ^ k) (rest : List UInt8) :
    field 0 k (leBytes k n ++ rest) = n := by
  rw [field, List.drop_zero, List.take_left' (length_leBytes k n), ofLeBytes_leBytes h]

theorem field_skip {xs : List UInt8} {i : Nat} (h : xs.length ≤ i) (k : Nat)
    (rest : List UInt8) : field i k (xs ++ rest) = field (i - xs.length) k rest := by
  rw [field, field, List.drop_append, List.drop_eq_nil_of_le h, List.nil_append]

/-! ## Memory -/

section

variable {α : Type*} {mem bytes : List α}

/-- Memory after a read into it: what has been read, and then what there was. -/
def fill (mem bytes : List α) : List α := bytes.take mem.length ++ mem.drop bytes.length

/-- A read of enough leaves nothing of what there was. -/
theorem fill_of_le (h : mem.length ≤ bytes.length) : fill mem bytes = bytes.take mem.length := by
  rw [fill, List.drop_eq_nil_of_le h, List.append_nil]

end

end Ambix.Lib
