import Mathlib.Data.List.Basic
import Mathlib.Data.List.Nodup
import Mathlib.Data.List.Rotate
import Mathlib.Tactic.TypeStar

/-!
# Lists read cyclically from a cursor

`ring c xs` is the list `xs` read from index `c` on and then from its start.
Removing an element from the list and moving the cursor with it (`slide`) removes
the element from that reading and nothing else (`ring_erase`), so the cursor goes
on denoting its element or, when that one is removed, the next one in the round.

`Roster` is the ordered list with cursors as its users see it: a cursor is the
element it stands at and an offset, not an index.
-/

namespace Ambix.Lib

section

variable {α : Type*}

/-- The list from index `c` on, then from its start up to `c`. -/
def ring (c : Nat) (xs : List α) : List α := xs.drop c ++ xs.take c

@[simp] theorem ring_nil (c : Nat) : ring c ([] : List α) = [] := by simp [ring]

theorem ring_append_of_le {c : Nat} {xs : List α} (h : c ≤ xs.length) (ys : List α) :
    ring c (xs ++ ys) = xs.drop c ++ ys ++ xs.take c := by
  rw [ring, List.drop_append_of_le_length h, List.take_append_of_le_length h]

theorem ring_append_of_ge {c : Nat} {xs : List α} (h : xs.length ≤ c) (ys : List α) :
    ring c (xs ++ ys) = ys.drop (c - xs.length) ++ (xs ++ ys.take (c - xs.length)) := by
  rw [ring, List.drop_append, List.take_append, List.drop_eq_nil_of_le h,
    List.take_of_length_le h, List.nil_append]

theorem mem_ring {c : Nat} {xs : List α} {x : α} : x ∈ ring c xs ↔ x ∈ xs := by
  rw [ring, List.mem_append, or_comm, ← List.mem_append, List.take_append_drop]

/-- The element under the cursor comes first. -/
theorem head?_ring {c : Nat} {xs : List α} (h : c < xs.length) : (ring c xs).head? = xs[c]? := by
  rw [ring, List.head?_append, List.head?_drop, List.getElem?_eq_getElem h]
  rfl

/-- Two rotations of a list without repeats that start alike are the same. -/
theorem eq_rotate_of_head? {xs ys : List α} (hnodup : xs.Nodup) (hrot : xs ~r ys) {n : Nat}
    (hn : n < xs.length) (h : ys.head? = xs[n]?) : ys = xs.rotate n := by
  obtain ⟨m, rfl⟩ := hrot
  have hpos : 0 < xs.length := by omega
  have hm : m % xs.length < xs.length := Nat.mod_lt _ hpos
  rw [← List.rotate_mod, List.head?_rotate hm, List.getElem?_eq_getElem hm,
    List.getElem?_eq_getElem hn, Option.some.injEq] at h
  rw [← List.rotate_mod, (hnodup.getElem_inj_iff).mp h]

/-- The cursor after the element at index `i` of `n` is removed. -/
def slide (n i c : Nat) : Nat :=
  if i < c then c - 1
  else if c = i ∧ c = n - 1 then 0
  else c

theorem slide_lt {n i c : Nat} (hi : i < n) (hc : c < n) :
    slide n i c < n - 1 ∨ (n - 1 = 0 ∧ slide n i c = 0) := by
  unfold slide
  split
  · omega
  · split <;> omega

variable [DecidableEq α]

theorem filter_ne_of_not_mem {zs : List α} {t : α} (h : t ∉ zs) :
    zs.filter (fun x => !decide (x = t)) = zs := by
  refine List.filter_eq_self.mpr fun x hx => ?_
  have hne : x ≠ t := fun heq => h (heq ▸ hx)
  simpa using hne

theorem filter_ne_middle {xs ys : List α} {t : α} (hx : t ∉ xs) (hy : t ∉ ys) :
    (xs ++ t :: ys).filter (fun x => !decide (x = t)) = xs ++ ys := by
  simp [filter_ne_of_not_mem hx, filter_ne_of_not_mem hy]

/-- **Removing an element removes it from the cyclic reading.** -/
theorem ring_erase {xs ys : List α} {t : α} (hx : t ∉ xs) (hy : t ∉ ys) {c : Nat}
    (hc : c < (xs ++ t :: ys).length) :
    ring (slide (xs ++ t :: ys).length xs.length c) (xs ++ ys) =
      (ring c (xs ++ t :: ys)).filter fun x => !decide (x = t) := by
  have hkeep : ∀ zs : List α, t ∉ zs → zs.filter (fun x => !decide (x = t)) = zs :=
    fun zs => filter_ne_of_not_mem
  have hdrop : ∀ (zs : List α) n, t ∉ zs → t ∉ zs.drop n := fun zs n h hm =>
    h (List.mem_of_mem_drop hm)
  have htake : ∀ (zs : List α) n, t ∉ zs → t ∉ zs.take n := fun zs n h hm =>
    h (List.mem_of_mem_take hm)
  simp only [List.length_append, List.length_cons] at hc ⊢
  unfold slide
  by_cases hlt : xs.length < c
  · -- the cursor is behind the removed element
    obtain ⟨d, rfl⟩ : ∃ d, c = xs.length + (d + 1) := ⟨c - xs.length - 1, by omega⟩
    rw [if_pos hlt, show xs.length + (d + 1) - 1 = xs.length + d by omega,
      ring_append_of_ge (Nat.le_add_right _ _), ring_append_of_ge (Nat.le_add_right _ _),
      Nat.add_sub_cancel_left, Nat.add_sub_cancel_left, List.drop_succ_cons, List.take_succ_cons]
    simp [hkeep _ hx, hkeep _ (hdrop ys d hy), hkeep _ (htake ys d hy)]
  · rw [if_neg hlt]
    have hle : c ≤ xs.length := Nat.le_of_not_lt hlt
    rw [ring_append_of_le hle (t :: ys)]
    by_cases heq : c = xs.length
    · -- the element under the cursor goes
      subst heq
      by_cases hend : ys = []
      · -- and it was the last one: the cursor goes back to the first
        subst hend
        simp [ring, hkeep _ hx]
      · have hpos : 0 < ys.length := List.length_pos_iff.mpr hend
        rw [if_neg (by omega), ring_append_of_le (Nat.le_refl _)]
        simp [hkeep _ hx, hkeep _ hy]
    · -- the cursor is before it and stays
      rw [if_neg (fun h => heq h.1), ring_append_of_le hle]
      simp [hkeep _ (hdrop xs c hx), hkeep _ hy, hkeep _ (htake xs c hx)]

end

/-! ## The abstract list with cursors -/

/-- An ordered list and, for every `τ`, the element and offset a cursor stands at. -/
structure Roster (τ α : Type*) where
  items : List α
  cursor : τ → Option (α × Nat)

namespace Roster

variable {τ α : Type*} [DecidableEq α]

/-- Keep some elements, in order. A cursor whose element goes moves to the next
kept one in the round, at offset 0. -/
def retain (keep : α → Bool) (r : Roster τ α) : Roster τ α where
  items := r.items.filter keep
  cursor i := (r.cursor i).bind fun (x, a) =>
    if keep x then some (x, a)
    else ((ring (r.items.idxOf x) r.items).find? keep).map fun y => (y, 0)

/-- Append an element. A cursor that stood nowhere stands at it. -/
def append (x : α) (r : Roster τ α) : Roster τ α where
  items := r.items ++ [x]
  cursor i := (r.cursor i).or (some (x, 0))

end Roster

end Ambix.Lib
