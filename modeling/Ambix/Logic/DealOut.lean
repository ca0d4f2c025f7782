import Ambix.Ctl.Migration

/-!
# The first loop of `do_migration`

As many candidates as there is room for are dealt out to the nodes in their order, each at
most as many as it has free pages.
-/

namespace Ambix.Ctl

open Ambix.Lib

/-- The free pages of `n` nodes, from reading `i` on. A negative reading is no room. -/
def roomOf (free : Nat → Int) : Nat → Nat → Nat
  | _, 0 => 0
  | i, n + 1 => (free i).toNat + roomOf free (i + 1) n

/-- The destinations are nodes of the list in its order, each at most as often as its
reading says. -/
def InNodeOrder (free : Nat → Int) : Nat → List Int → List Int → Prop
  | _, [], dests => dests = []
  | i, node :: nodes, dests => ∃ count rest, dests = List.replicate count node ++ rest ∧
      (count : Int) ≤ max 0 (free i) ∧ InNodeOrder free (i + 1) nodes rest

section

variable {host : Host} {c : Arr AddrInfo} {nFound : Nat}

/-- The first of the readings, and the others. -/
theorem noRoom_succ {free : Nat → Int} {i n : Nat} :
    (∀ j, j < n + 1 → free (i + j) ≤ 0) ↔ free i ≤ 0 ∧ ∀ j, j < n → free (i + 1 + j) ≤ 0 := by
  constructor
  · intro hall
    refine ⟨hall 0 (Nat.succ_pos n), fun j hj => ?_⟩
    rw [Nat.add_assoc, Nat.add_comm 1 j]
    exact hall (j + 1) (Nat.succ_lt_succ hj)
  · rintro ⟨hfirst, hrest⟩ j hj
    cases j with
    | zero => exact hfirst
    | succ j =>
      rw [Nat.add_comm j 1, ← Nat.add_assoc]
      exact hrest j (Nat.lt_of_succ_lt_succ hj)

/-- There is room as soon as one of the readings finds some. -/
theorem roomOf_eq_zero {free : Nat → Int} {i n : Nat} :
    roomOf free i n = 0 ↔ ∀ j, j < n → free (i + j) ≤ 0 := by
  induction n generalizing i with
  | zero => simp [roomOf]
  | succ n ih => rw [roomOf, Nat.add_eq_zero_iff, ih, Int.toNat_eq_zero, noRoom_succ]

theorem InNodeOrder.mem {free : Nat → Int} {i : Nat} {nodes dests : List Int}
    (h : InNodeOrder free i nodes dests) : ∀ v ∈ dests, v ∈ nodes := by
  induction nodes generalizing i dests with
  | nil =>
    rw [show dests = [] from h]
    simp
  | cons node nodes ih =>
    obtain ⟨count, rest, rfl, _, hrest⟩ := h
    intro v hv
    rcases List.mem_append.mp hv with hv | hv
    · rw [List.eq_of_mem_replicate hv]
      exact List.mem_cons_self
    · exact List.mem_cons_of_mem _ (ih hrest v hv)

theorem inNodeOrder_nil (free : Nat → Int) (i : Nat) (nodes : List Int) :
    InNodeOrder free i nodes [] := by
  induction nodes generalizing i with
  | nil => rfl
  | cons node nodes ih => exact ⟨0, [], rfl, Int.le_max_left _ _, ih (i + 1)⟩

variable (host c) in
/-- What the first loop adds to the slots. -/
theorem dealOut_spec (nodes : List Int) (i : Nat) {slots : List (Nat × Int)}
    (h : slots.length ≤ nFound) :
    ∃ more, dealOut host c nFound i nodes slots = slots ++ more ∧
      slots.length + more.length =
        min nFound (slots.length + roomOf host.freeSpacePages i nodes.length) ∧
      more.map Prod.fst = (c.slice slots.length more.length).map AddrInfo.addr ∧
      InNodeOrder host.freeSpacePages i nodes (more.map Prod.snd) := by
  induction nodes generalizing i slots with
  | nil =>
    refine ⟨[], (List.append_nil _).symm, ?_, rfl, rfl⟩
    simp only [List.length_nil, roomOf]
    omega
  | cons node nodes ih =>
    unfold dealOut
    split
    · rename_i hroom
      simp only
      generalize hcount : min (host.freeSpacePages i).toNat (nFound - slots.length) = count
      generalize hpart : (List.range count).map (fun j => ((c (slots.length + j)).addr, node)) = part
      have hlen : part.length = count := by rw [← hpart, List.length_map, List.length_range]
      have hfst : part.map Prod.fst = (c.slice slots.length count).map AddrInfo.addr := by
        rw [← hpart, List.map_map, Arr.slice, List.map_map]
        rfl
      have hsnd : part.map Prod.snd = List.replicate count node := by
        rw [← hpart, List.map_map]
        simp [Function.comp_def]
      have hle : (slots ++ part).length ≤ nFound := by
        rw [List.length_append]
        omega
      obtain ⟨more, hmore, hlength, haddr, hnodes⟩ := ih (i + 1) hle
      rw [List.length_append, hlen] at hlength haddr
      refine ⟨part ++ more, by rw [hmore, List.append_assoc], ?_, ?_, ?_⟩
      · rw [List.length_append, hlen, List.length_cons, roomOf]
        omega
      · rw [List.map_append, hfst, haddr, List.length_append, hlen, Arr.slice_add, List.map_append]
      · refine ⟨count, more.map Prod.snd, by rw [List.map_append, hsnd], by omega, hnodes⟩
    · refine ⟨[], (List.append_nil _).symm, ?_, rfl, inNodeOrder_nil _ _ _⟩
      simp only [List.length_nil]
      omega

variable (host c nFound) in
/-- The slots of `do_migration`. -/
theorem dealOut_slots (nodes : List Int) :
    (dealOut host c nFound 0 nodes []).length =
        min nFound (roomOf host.freeSpacePages 0 nodes.length) ∧
      (dealOut host c nFound 0 nodes []).map Prod.fst =
        (c.slice 0 (dealOut host c nFound 0 nodes []).length).map AddrInfo.addr ∧
      InNodeOrder host.freeSpacePages 0 nodes ((dealOut host c nFound 0 nodes []).map Prod.snd) := by
  have hempty : ([] : List (Nat × Int)).length ≤ nFound := Nat.zero_le _
  obtain ⟨slots, hslots, hcount, haddr, hnodes⟩ := dealOut_spec host c nodes 0 hempty
  rw [List.nil_append] at hslots
  simp only [List.length_nil, Nat.zero_add] at hcount haddr
  rw [hslots]
  exact ⟨hcount, haddr, hnodes⟩

end

end Ambix.Ctl
