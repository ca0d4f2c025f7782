import Ambix.Logic.DealOut
import Ambix.Logic.Runs

/-!
# What the controller reads of a reply

The scan of `send_find` stops at the first entry without a positive pid.
`do_migration` only hands on what the scan counted: each page of a call is a candidate
below `n_found`, with the candidate's own pid and address, and goes to a node of its list.
-/

namespace Ambix.Ctl

open Ambix.Lib Ambix.Lib.Batch

/-! ## The scan -/

theorem scanFrom_eq {c : Arr AddrInfo} {k slots : Nat} (hk : k < slots) {i : Nat}
    (hpos : ∀ j < k, 0 < (c (i + j)).pidRetval) (hstop : (c (i + k)).pidRetval ≤ 0) :
    scanFrom c i slots = some (i + k) := by
  induction slots generalizing i k with
  | zero => omega
  | succ slots ih =>
    unfold scanFrom
    cases k with
    | zero => rw [if_neg (by rw [Nat.add_zero] at hstop; omega), Nat.add_zero]
    | succ k =>
      have hpos' : ∀ j < k, 0 < (c (i + 1 + j)).pidRetval := by
        intro j hj
        rw [Nat.add_assoc, Nat.add_comm 1 j]
        exact hpos (j + 1) (by omega)
      have hstop' : (c (i + 1 + k)).pidRetval ≤ 0 := by
        rw [Nat.add_assoc, Nat.add_comm 1 k]
        exact hstop
      rw [if_pos (by simpa using hpos 0 (Nat.succ_pos k)), ih (by omega) hpos' hstop',
        Nat.add_assoc, Nat.add_comm 1 k]

/-- An array that holds a list holds each part of it in its place. -/
theorem slice_of_append {c : Arr AddrInfo} {xs ys : List AddrInfo} {n : Nat}
    (h : c.slice 0 n = xs ++ ys) :
    c.slice 0 xs.length = xs ∧ c.slice xs.length ys.length = ys := by
  have hlen : n = xs.length + ys.length := by
    rw [← List.length_append, ← h, Arr.length_slice]
  rw [hlen, Arr.slice_add, Nat.zero_add] at h
  exact List.append_inj h (Arr.length_slice _ _ _)

/-- **The scan** of an array that holds candidates and then an entry that is none. -/
theorem scan_eq {c : Arr AddrInfo} {xs ys : List AddrInfo} {x : AddrInfo} {n : Nat}
    (h : c.slice 0 n = xs ++ x :: ys) (hpos : ∀ y ∈ xs, 0 < y.pidRetval)
    (hstop : x.pidRetval ≤ 0) (hlen : xs.length ≤ maxNFind) : scan c = some xs.length := by
  obtain ⟨hxs, hys⟩ := slice_of_append h
  have hx : c xs.length = x := by
    rw [List.length_cons, Arr.slice_cons] at hys
    exact (List.cons.inj hys).1
  unfold scan
  rw [scanFrom_eq (i := 0) (Nat.lt_succ_of_le hlen), Nat.zero_add]
  · intro j hj
    exact hpos _ (hxs ▸ Arr.mem_slice.mpr ⟨j, hj, rfl⟩)
  · rw [Nat.zero_add, hx]
    exact hstop

/-! ## `do_migration` -/

section

variable {host : Host} {c : Arr AddrInfo} {nFound : Nat}

/-- The slots that `addr` and `dest_nodes` hold belong to the first candidates. -/
structure Dealt (c : Arr AddrInfo) (nFound : Nat) (nodes : List Int) (slots : List (Nat × Int)) :
    Prop where
  length_le : slots.length ≤ nFound
  addr : ∀ p slot, slots[p]? = some slot → slot.1 = (c p).addr
  node : ∀ slot ∈ slots, slot.2 ∈ nodes

theorem dealOut_dealt (nodes : List Int) :
    Dealt c nFound nodes (dealOut host c nFound 0 nodes []) := by
  obtain ⟨hcount, haddr, hnodes⟩ := dealOut_slots host c nFound nodes
  refine ⟨by omega, fun p slot hp => ?_, fun slot hslot => ?_⟩
  · have hlt := (List.getElem?_eq_some_iff.mp hp).1
    have hmap := congrArg (fun xs => xs[p]?) haddr
    simp only [List.getElem?_map, hp, Arr.slice, List.getElem?_range hlt, Option.map_some,
      Nat.zero_add, Option.some.injEq] at hmap
    exact hmap
  · exact hnodes.mem _ (List.mem_map_of_mem hslot)

/-- Each page of a call is a slot, and its position a candidate of the call's pid. -/
def Genuine (c : Arr AddrInfo) (slots : List (Nat × Int)) (call : MoveCall) : Prop :=
  ∀ j page, call.pages[j]? = some page →
    slots[call.first + j]? = some page ∧ (c (call.first + j)).pidRetval = call.pid

theorem callOf_genuine {slots : List (Nat × Int)} {turns pos calls : Nat} {s : Submission}
    (hs : s ∈ submit host.fails (runsFrom c slots.length turns pos) calls) :
    Genuine c slots (callOf c slots s) := by
  obtain ⟨_, hpid⟩ := submit_pid hs
  intro j page hpage
  rw [callOf, List.getElem?_take] at hpage
  split at hpage
  · rename_i hj
    rw [List.getElem?_drop] at hpage
    exact ⟨hpage, hpid j hj⟩
  · simp at hpage

/-- **The calls of `do_migration`**: every page is that of a candidate below `n_found`,
under the candidate's pid, and goes to a node of the list. -/
theorem doMigration_genuine (P : Platform) (mode : FindMode) {call : MoveCall}
    (hcall : call ∈ (doMigration P host mode nFound c).1) {j : Nat} {page : Nat × Int}
    (hpage : call.pages[j]? = some page) :
    call.first + j < nFound ∧ c (call.first + j) = ⟨page.1, call.pid⟩ ∧
      page.2 ∈ nodeList P mode := by
  have hdealt : Dealt c nFound (nodeList P mode) (dealOut host c nFound 0 (nodeList P mode) []) :=
    dealOut_dealt _
  unfold doMigration at hcall
  simp only [moveRuns_log, List.nil_append] at hcall
  obtain ⟨s, hs, rfl⟩ := List.mem_map.mp hcall
  obtain ⟨hslot, hpid⟩ := callOf_genuine hs j page hpage
  obtain ⟨hlt, hget⟩ := List.getElem?_eq_some_iff.mp hslot
  refine ⟨Nat.lt_of_lt_of_le hlt hdealt.length_le, ?_, hdealt.node _ (hget ▸ List.getElem_mem hlt)⟩
  rw [hdealt.addr _ _ hslot, ← hpid]

end

end Ambix.Ctl
