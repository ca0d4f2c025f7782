import Mathlib.Logic.Function.Basic
import Mathlib.Data.List.Basic
import Mathlib.Tactic.TypeStar

/-!
# Arrays as total functions

An array is the function from indices to contents, so a slot that was never
written still has a (stale) value. Sections of an array are read back as lists
(`slice`), and the two in-place copy loops, ascending and descending, are given
their pointwise meaning under the overlap each of them tolerates.
-/

namespace Ambix.Lib

/-- An array, as the contents of every index. -/
abbrev Arr (α : Type*) := Nat → α

namespace Arr

variable {α : Type*}

/-- Overwrite one slot. -/
def set (a : Arr α) (i : Nat) (x : α) : Arr α := Function.update a i x

@[simp] theorem set_self (a : Arr α) (i : Nat) (x : α) : set a i x i = x := by
  simp [set]

@[simp] theorem set_ne (a : Arr α) {i j : Nat} (x : α) (h : j ≠ i) :
    set a i x j = a j := by
  simp [set, h]

theorem set_apply (a : Arr α) (i j : Nat) (x : α) :
    set a i x j = if j = i then x else a j := by
  by_cases h : j = i
  · subst h; simp
  · simp [h]

/-- The `n` slots starting at `lo`. -/
def slice (a : Arr α) (lo n : Nat) : List α := (List.range n).map fun j => a (lo + j)

@[simp] theorem slice_zero (a : Arr α) (lo : Nat) : slice a lo 0 = [] := rfl

@[simp] theorem length_slice (a : Arr α) (lo n : Nat) : (slice a lo n).length = n := by
  simp [slice]

theorem slice_succ (a : Arr α) (lo n : Nat) :
    slice a lo (n + 1) = slice a lo n ++ [a (lo + n)] := by
  simp [slice, List.range_succ]

theorem slice_add (a : Arr α) (lo m n : Nat) :
    slice a lo (m + n) = slice a lo m ++ slice a (lo + m) n := by
  induction n with
  | zero => simp
  | succ n ih => rw [← Nat.add_assoc, slice_succ, ih, slice_succ, List.append_assoc,
      Nat.add_assoc]

theorem slice_cons (a : Arr α) (lo n : Nat) :
    slice a lo (n + 1) = a lo :: slice a (lo + 1) n := by
  rw [Nat.add_comm n 1, slice_add]
  rfl

theorem mem_slice {a : Arr α} {lo n : Nat} {x : α} :
    x ∈ slice a lo n ↔ ∃ j < n, a (lo + j) = x := by
  simp [slice]

/-- Sections only depend on their own slots. -/
theorem slice_congr {a b : Arr α} {lo n : Nat} (h : ∀ j < n, a (lo + j) = b (lo + j)) :
    slice a lo n = slice b lo n := by
  simp only [slice]
  exact List.map_congr_left fun j hj => h j (List.mem_range.mp hj)

/-- A write past the end of a section leaves it alone. -/
theorem slice_set_ge (a : Arr α) {lo n i : Nat} (x : α) (h : lo + n ≤ i) :
    slice (set a i x) lo n = slice a lo n :=
  slice_congr fun j hj => set_ne a x (by omega)

/-- Writing the slot after a section extends it. -/
theorem slice_set_end (a : Arr α) (lo n : Nat) (x : α) :
    slice (set a (lo + n) x) lo (n + 1) = slice a lo n ++ [x] := by
  rw [slice_succ, slice_set_ge a x (Nat.le_refl _), set_self]

/-- A shorter section is a prefix of a longer one. -/
theorem take_slice (a : Arr α) (lo : Nat) {m n : Nat} (h : m ≤ n) :
    (slice a lo n).take m = slice a lo m := by
  obtain ⟨d, rfl⟩ := Nat.exists_eq_add_of_le h
  rw [slice_add, List.take_left' (length_slice a lo m)]

/-- Sections of equal width, one after the other, are one section. -/
theorem slice_mul (a : Arr α) (w k : Nat) :
    ((List.range k).map fun i => slice a (i * w) w).flatten = slice a 0 (k * w) := by
  induction k with
  | zero => simp
  | succ k ih =>
    rw [List.range_succ, List.map_append, List.flatten_append, ih, Nat.succ_mul, slice_add,
      Nat.zero_add]
    simp

/-! ## Copying a list into an array -/

/-- Overwrite the slots from `pos` on with a list. -/
def write (a : Arr α) (pos : Nat) : List α → Arr α
  | [] => a
  | x :: xs => write (a.set pos x) (pos + 1) xs

theorem write_append (xs ys : List α) (a : Arr α) (pos : Nat) :
    write a pos (xs ++ ys) = write (write a pos xs) (pos + xs.length) ys := by
  induction xs generalizing a pos with
  | nil => rfl
  | cons x xs ih =>
    show write (a.set pos x) (pos + 1) (xs ++ ys) = _
    rw [ih, List.length_cons, Nat.add_comm xs.length 1, ← Nat.add_assoc]
    rfl

/-- Writing a section of one array into another. -/
theorem write_slice (a b : Arr α) (lo pos n k : Nat) :
    write b pos (slice a lo n) k =
      if pos ≤ k ∧ k < pos + n then a (lo + (k - pos)) else b k := by
  induction n generalizing b lo pos with
  | zero =>
    rw [if_neg (by omega)]
    rfl
  | succ n ih =>
    rw [slice_cons]
    show write (b.set pos (a lo)) (pos + 1) (slice a (lo + 1) n) k = _
    rw [ih]
    by_cases hk : k = pos
    · subst hk
      rw [if_neg (by omega), if_pos (by omega), set_self, Nat.sub_self, Nat.add_zero]
    · by_cases hin : pos + 1 ≤ k ∧ k < pos + 1 + n
      · rw [if_pos hin, if_pos (by omega)]
        congr 1
        omega
      · rw [if_neg hin, if_neg (by omega), set_ne _ _ hk]

/-- A section that ends where a list is written grows by the list. -/
theorem slice_write (xs : List α) (a : Arr α) (lo n : Nat) :
    slice (write a (lo + n) xs) lo (n + xs.length) = slice a lo n ++ xs := by
  induction xs generalizing a n with
  | nil => simp [write]
  | cons x xs ih =>
    have hrest := ih (a.set (lo + n) x) (n + 1)
    rw [slice_set_end, List.append_assoc] at hrest
    rw [List.length_cons, show n + (xs.length + 1) = n + 1 + xs.length by omega]
    exact hrest

/-! ## Copying inside one array -/

/-- `for (i = 0; i < n; i++) a[dst + i] = a[src + i]`. -/
def copyUp (a : Arr α) (src dst n : Nat) : Arr α :=
  (List.range n).foldl (fun a i => a.set (dst + i) (a (src + i))) a

/-- `for (i = n - 1; i >= 0; i--) a[dst + i] = a[src + i]`. -/
def copyDown (a : Arr α) (src dst n : Nat) : Arr α :=
  (List.range n).reverse.foldl (fun a i => a.set (dst + i) (a (src + i))) a

theorem copyUp_succ (a : Arr α) (src dst n : Nat) :
    copyUp a src dst (n + 1) =
      (copyUp a src dst n).set (dst + n) (copyUp a src dst n (src + n)) := by
  simp [copyUp, List.range_succ]

/-- An ascending copy to the left has not yet overwritten the slots it still
has to read. -/
theorem copyUp_ahead (a : Arr α) {src dst : Nat} (h : dst ≤ src) {n j : Nat} (hj : n ≤ j) :
    copyUp a src dst n (src + j) = a (src + j) := by
  induction n with
  | zero => rfl
  | succ n ih => rw [copyUp_succ, set_ne _ _ (by omega), ih (by omega)]

/-- Copying ascending is right when the target does not start after the source. -/
theorem copyUp_apply (a : Arr α) {src dst : Nat} (h : dst ≤ src) (n k : Nat) :
    copyUp a src dst n k = if dst ≤ k ∧ k < dst + n then a (src + (k - dst)) else a k := by
  induction n with
  | zero => simp [copyUp, show ¬(dst ≤ k ∧ k < dst) by omega]
  | succ n ih =>
    rw [copyUp_succ, set_apply, copyUp_ahead a h (Nat.le_refl n)]
    by_cases hk : k = dst + n
    · subst hk
      simp
    · rw [if_neg hk, ih]
      by_cases hin : dst ≤ k ∧ k < dst + n
      · rw [if_pos hin, if_pos (by omega)]
      · rw [if_neg hin, if_neg (by omega)]

/-- In the middle of an ascending copy to the left no entry is lost: the first `i` are at
their new place, the others at their old one. -/
theorem copyUp_keeps (a : Arr α) {src dst : Nat} (h : dst ≤ src) {n i : Nat} (hi : i ≤ n) :
    slice (copyUp a src dst i) dst i ++ slice (copyUp a src dst i) (src + i) (n - i) =
      slice a src n := by
  have hmoved : slice (copyUp a src dst i) dst i = slice a src i := by
    simp only [slice]
    refine List.map_congr_left fun j hj => ?_
    have hj := List.mem_range.mp hj
    rw [copyUp_apply a h, if_pos (by omega), Nat.add_sub_cancel_left]
  have hahead : slice (copyUp a src dst i) (src + i) (n - i) = slice a (src + i) (n - i) := by
    refine slice_congr fun j _ => ?_
    rw [Nat.add_assoc]
    exact copyUp_ahead a h (Nat.le_add_right i j)
  rw [hmoved, hahead, ← slice_add, Nat.add_sub_cancel' hi]

/-- Copying descending is right when the target does not start before the source. -/
theorem copyDown_apply (a : Arr α) {src dst : Nat} (h : src ≤ dst) (n k : Nat) :
    copyDown a src dst n k = if dst ≤ k ∧ k < dst + n then a (src + (k - dst)) else a k := by
  induction n generalizing a with
  | zero => simp [copyDown, show ¬(dst ≤ k ∧ k < dst) by omega]
  | succ n ih =>
    have hstep : copyDown a src dst (n + 1) =
        copyDown (a.set (dst + n) (a (src + n))) src dst n := by
      simp [copyDown, List.range_succ]
    rw [hstep, ih]
    by_cases hin : dst ≤ k ∧ k < dst + n
    · rw [if_pos hin, if_pos (by omega), set_ne _ _ (by omega)]
    · rw [if_neg hin, set_apply]
      by_cases hk : k = dst + n
      · subst hk
        simp
      · rw [if_neg hk, if_neg (by omega)]

/-- The first `i` steps of a descending copy are the copy of its last `i` entries. -/
theorem copyDown_take (a : Arr α) (src dst : Nat) {n i : Nat} (hi : i ≤ n) :
    ((List.range n).reverse.take i).foldl (fun a i => a.set (dst + i) (a (src + i))) a =
      copyDown a (src + (n - i)) (dst + (n - i)) i := by
  obtain ⟨k, rfl⟩ := Nat.exists_eq_add_of_le' hi
  have hlast : (List.range (k + i)).reverse.take i =
      ((List.range i).map fun j => k + j).reverse := by
    rw [List.take_reverse, List.length_range, Nat.add_sub_cancel, List.range_add,
      List.drop_left' List.length_range]
  rw [hlast, Nat.add_sub_cancel, ← List.map_reverse, List.foldl_map]
  simp only [copyDown, Nat.add_assoc]

/-- In the middle of a descending copy to the right no entry is lost: the last `i` are at
their new place, the others at their old one. -/
theorem copyDown_keeps (a : Arr α) {src dst : Nat} (h : src ≤ dst) {n i : Nat} (hi : i ≤ n) :
    slice (copyDown a (src + (n - i)) (dst + (n - i)) i) src (n - i) ++
        slice (copyDown a (src + (n - i)) (dst + (n - i)) i) (dst + (n - i)) i =
      slice a src n := by
  have hahead : slice (copyDown a (src + (n - i)) (dst + (n - i)) i) src (n - i) =
      slice a src (n - i) := by
    refine slice_congr fun j hj => ?_
    rw [copyDown_apply a (by omega), if_neg (by omega)]
  have hmoved : slice (copyDown a (src + (n - i)) (dst + (n - i)) i) (dst + (n - i)) i =
      slice a (src + (n - i)) i := by
    simp only [slice]
    refine List.map_congr_left fun j hj => ?_
    have hj := List.mem_range.mp hj
    rw [copyDown_apply a (by omega), if_pos (by omega), Nat.add_sub_cancel_left]
  rw [hahead, hmoved, ← slice_add, Nat.sub_add_cancel hi]

end Arr
end Ambix.Lib
