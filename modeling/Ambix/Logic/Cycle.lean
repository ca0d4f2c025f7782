import Ambix.Lib.Ring
import Ambix.Logic.Visits

/-!
# The order of a round

`do_page_walk` goes once around the registry from the process of the hand: `others` are
the processes it comes to after that one, and `cycle` ends with the way back to the hand.
-/

namespace Ambix.Hyb

open Ambix.Lib

/-- The processes a round from process `i` comes to after it. -/
def others (n i : Nat) : List Nat := List.range' (i + 1) (n - (i + 1)) ++ List.range i

theorem mem_others {n i j : Nat} (hi : i < n) : j ∈ others n i ↔ j < n ∧ j ≠ i := by
  simp only [others, List.mem_append, List.mem_range'_1, List.mem_range]
  omega

theorem rotate_range {n i : Nat} (hi : i < n) : (List.range n).rotate i = i :: others n i := by
  rw [List.rotate_eq_drop_append_take (by simp; omega), List.take_range, List.range_eq_range',
    List.drop_range', Nat.min_eq_left (Nat.le_of_lt hi), others]
  obtain ⟨d, hd⟩ : ∃ d, n - i = d + 1 := ⟨n - i - 1, by omega⟩
  rw [hd, show n - (i + 1) = d by omega, List.range'_succ]
  simp

theorem others_nodup {n i : Nat} (hi : i < n) : (i :: others n i).Nodup :=
  rotate_range hi ▸ List.nodup_rotate.mpr List.nodup_range

/-- The processes after one that comes up in a round, and those before it. -/
theorem others_split {n i j : Nat} (hi : i < n) {a b : List Nat}
    (h : others n i = a ++ j :: b) : others n j = b ++ i :: a := by
  have hj : j < n := ((mem_others hi).mp (h ▸ by simp)).1
  have hrot : (List.range n).rotate i = (i :: a) ++ j :: b := by rw [rotate_range hi, h]; rfl
  have hnodup : ((i :: a) ++ j :: b).Nodup := hrot ▸ List.nodup_rotate.mpr List.nodup_range
  have hboth : ((i :: a) ++ j :: b) ~r (j :: others n j) := by
    rw [← hrot, ← rotate_range hj]
    exact (List.IsRotated.forall _ _).trans (List.IsRotated.forall _ _).symm
  have heq := eq_rotate_of_head? hnodup hboth (n := (i :: a).length) (by simp)
    (by rw [List.getElem?_append_right (Nat.le_refl _), Nat.sub_self]; rfl)
  rw [List.rotate_append_length_eq] at heq
  exact (List.cons.inj heq).2

theorem cycle_eq (n i a : Nat) :
    cycle n i a = ⟨i, a, maxAddress⟩ :: ((others n i).map Stretch.whole ++ [⟨i, 0, a + 1⟩]) := by
  simp [cycle, others]

/-- The stretches but for the last one are of different processes. -/
theorem round_nodup {items : Arr TaskPtr} {n i : Nat} (hi : i < n)
    (hinj : ∀ a < n, ∀ b < n, items a = items b → a = b) (a : Nat) :
    ((⟨i, a, maxAddress⟩ :: (others n i).map Stretch.whole).map fun s => items s.index).Nodup := by
  have hlt : ∀ j ∈ i :: others n i, j < n := by
    intro j hj
    rcases List.mem_cons.mp hj with rfl | hj
    · exact hi
    · exact ((mem_others hi).mp hj).1
  have hitems := (others_nodup hi).map_on fun a ha b hb heq => hinj a (hlt a ha) b (hlt b hb) heq
  rw [List.map_cons, List.map_map]
  exact hitems

theorem cycle_index_lt {n i a : Nat} (hi : i < n) {s : Stretch} (h : s ∈ cycle n i a) :
    s.index < n := by
  rw [cycle_eq] at h
  simp only [List.mem_cons, List.mem_append, List.mem_map, List.not_mem_nil, or_false] at h
  rcases h with rfl | ⟨j, hj, rfl⟩ | rfl
  · exact hi
  · exact ((mem_others hi).mp hj).1
  · exact hi

/-- A later stretch of a cycle belongs to another process or ends where the first one
starts. -/
theorem cycle_pairwise {n i : Nat} (hi : i < n) (a : Nat) :
    (cycle n i a).Pairwise fun s s' => s.index ≠ s'.index ∨ s'.stop ≤ s.start + 1 := by
  rw [cycle_eq, List.pairwise_cons]
  refine ⟨fun s hs => ?_, List.pairwise_append.mpr ⟨?_, List.pairwise_singleton _ _, ?_⟩⟩
  · simp only [List.mem_append, List.mem_map, List.mem_singleton] at hs
    rcases hs with ⟨j, hj, rfl⟩ | rfl
    · exact Or.inl (((mem_others hi).mp hj).2).symm
    · exact Or.inr (Nat.le_refl _)
  · rw [List.pairwise_map]
    exact (List.nodup_cons.mp (others_nodup hi)).2.imp fun hne => Or.inl hne
  · intro s hs s' hs'
    obtain ⟨j, hj, rfl⟩ := List.mem_map.mp hs
    rw [List.mem_singleton.mp hs']
    exact Or.inl ((mem_others hi).mp hj).2

/-- Every stretch but the last goes to the end of its address space and reaches down to
the hand address. -/
theorem cycle_stretch {n i a : Nat} {pre post : List Stretch} {s : Stretch}
    (h : cycle n i a = pre ++ s :: post) :
    (post = [] ∧ s = ⟨i, 0, a + 1⟩) ∨ (pre = [] ∧ s = ⟨i, a, maxAddress⟩) ∨
      ∃ b c, others n i = b ++ s.index :: c ∧ s = .whole s.index ∧
        pre = ⟨i, a, maxAddress⟩ :: b.map Stretch.whole ∧
        post = c.map Stretch.whole ++ [⟨i, 0, a + 1⟩] := by
  rw [cycle_eq] at h
  cases pre with
  | nil =>
    simp only [List.nil_append, List.cons.injEq] at h
    exact Or.inr (Or.inl ⟨rfl, h.1.symm⟩)
  | cons s₀ pre =>
    simp only [List.cons_append, List.cons.injEq] at h
    obtain ⟨rfl, h⟩ := h
    -- `s` is the way back to the hand or one of the others
    rcases List.append_eq_append_iff.mp h with ⟨d, hd, hrest⟩ | ⟨d, hd, hrest⟩
    · cases d with
      | nil =>
        simp only [List.nil_append, List.cons.injEq] at hrest
        exact Or.inl ⟨hrest.2.symm, hrest.1.symm⟩
      | cons _ _ => simp at hrest
    · cases d with
      | nil =>
        simp only [List.nil_append, List.cons.injEq] at hrest
        exact Or.inl ⟨hrest.2, hrest.1⟩
      | cons s₁ d =>
        simp only [List.cons_append, List.cons.injEq] at hrest
        obtain ⟨rfl, rfl⟩ := hrest
        obtain ⟨b, c', hbc, hb, hc⟩ := List.map_eq_append_iff.mp hd
        obtain ⟨j, c, rfl, rfl, rfl⟩ := List.map_eq_cons_iff.mp hc
        exact Or.inr (Or.inr ⟨b, c, hbc, rfl, by rw [hb], rfl⟩)

end Ambix.Hyb
