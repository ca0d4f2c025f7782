import Ambix.Logic.Visits

/-!
# What `mem_walk` returns

The walk leaves a scan of the visits in the arrays; topping `found_addrs` up from
`backup_addrs` makes it the selection of the library.
-/

namespace Ambix.Hyb

open Ambix.Lib Ambix.Lib.QuotaScan

/-! ## Appending backups -/

section Append

variable (s : Spare) (c : Nat) (m : Mod)

theorem Mod.appendFound_succ :
    m.appendFound s (c + 1) = (m.appendFound s c).pushFound ((m.appendFound s c).spareAddrs s c) := by
  simp [Mod.appendFound, List.range_succ]

@[simp] theorem Mod.appendFound_zero : m.appendFound s 0 = m := rfl

@[simp] theorem Mod.spareAddrs_appendFound (s' : Spare) :
    (m.appendFound s c).spareAddrs s' = m.spareAddrs s' := by
  induction c with
  | zero => rfl
  | succ c ih => rw [appendFound_succ, spareAddrs_pushFound, ih]

@[simp] theorem Mod.nFound_appendFound : (m.appendFound s c).nFound = m.nFound + c := by
  induction c with
  | zero => rfl
  | succ c ih =>
    rw [appendFound_succ]
    simp [Mod.pushFound, ih, Nat.add_assoc]

theorem Mod.appendFound_fixed : Fixed m (m.appendFound s c) := by
  induction c with
  | zero => exact .refl m
  | succ c ih =>
    rw [appendFound_succ]
    exact ih.trans (.pushFound _ _)

/-- Appending adds to the trace only. -/
theorem Mod.visited_appendFound {x : Exam} (h : m.visited x) : (m.appendFound s c).visited x := by
  induction c with
  | zero => exact h
  | succ c ih =>
    obtain ⟨n, hn⟩ := ih
    rw [appendFound_succ]
    exact ⟨n, List.mem_cons_of_mem _ hn⟩

/-- A section that ends at `n_found` is extended by the first backups. -/
theorem Mod.appendFound_slice {lo d : Nat} (h : lo + d = m.nFound) :
    (m.appendFound s c).foundAddrs.slice lo (d + c) =
      m.foundAddrs.slice lo d ++ (m.spareAddrs s).slice 0 c := by
  induction c with
  | zero => simp
  | succ c ih =>
    have hend : (m.appendFound s c).nFound = lo + (d + c) := by simp; omega
    rw [appendFound_succ, spareAddrs_appendFound]
    simp only [Mod.pushFound, hend]
    rw [← Nat.add_assoc d c 1, Arr.slice_set_end, ih, Arr.slice_succ, List.append_assoc,
      Nat.zero_add]

end Append

/-! ## The walk and its result -/

section

variable {P : Platform} {π : Policy P}

/-- An empty scan at slot `base`. -/
theorem Filled.start {base : Nat} {m : Mod} (hfound : m.nFound = base)
    (hspare : m.nSpare π.spare = 0) : Filled π base Pick.empty m :=
  ⟨by simp [Pick.empty, hfound], rfl, by simp [Pick.empty, hspare], rfl, by simp [Pick.empty]⟩

theorem Tracks.start {base q : Nat} {m : Mod} (hsmall : base + q ≤ maxNFind)
    (hquota : m.nToFind = base + q) (hfound : m.nFound = base) (hspare : m.nSpare π.spare = 0) :
    Tracks π base q Pick.empty m :=
  ⟨.start hfound hspare, hsmall, hquota, Nat.zero_le _⟩

/-- The quota is met by as many primaries as it asks for. -/
theorem length_scan_found (v : Exam → Verdict) (q : Nat) (xs : List Exam) :
    (scan v q xs Pick.empty).found.length = min q (primaries v xs).length := by
  rw [scan_found, List.length_take]

/-- Topping up the found list of a scan gives the selection. -/
theorem Tracks.appendFound {q : Nat} {xs : List Exam} {m : Mod}
    (h : Tracks π 0 q (scan π.classOf q xs Pick.empty) m) :
    let c := min (q - m.nFound) (m.nSpare π.spare)
    (m.appendFound π.spare c).reply = (select π.classOf q xs).map Exam.info := by
  simp only
  generalize hst : scan π.classOf q xs Pick.empty = st at h
  have hsel := scan_select π.classOf q xs
  rw [hst] at hsel
  have hf : m.nFound = st.found.length := by simpa using h.nFound
  rw [Mod.reply, Mod.nFound_appendFound, Mod.appendFound_slice _ _ _ (Nat.zero_add _), hf,
    h.found, h.nSpare, ← Arr.take_slice _ _ (Nat.min_le_right _ _), h.spare, ← hsel,
    List.map_append, List.map_take, Nat.min_comm, ← List.take_take,
    List.take_of_length_le (by rw [List.length_take, List.length_map]; exact Nat.min_le_right _ _)]

end

/-- The policy `mem_walk` follows in each of its modes. -/
def memWalkPolicy (P : Platform) : FindMode → Option (Policy P)
  | .dram => some (memPolicy P)
  | .nvram => some (nvramForcePolicy P)
  | .nvramIntensive => some (nvramIntensivePolicy P)
  | .nvramWrite => some (nvramWritePolicy P)
  | .switch | .nvramClear => none

theorem memWalkPolicy_ops {P : Platform} {mode : FindMode} {π : Policy P}
    (h : memWalkPolicy P mode = some π) :
    memWalkOps P mode = some (π.callback, π.tier) ∧ π.spare = .backup := by
  cases mode <;> simp only [memWalkPolicy, Option.some.injEq, reduceCtorEq] at h <;> subst h
  · exact ⟨by rw [memWalkOps, pteCallbackMem_eq]; rfl, rfl⟩
  · exact ⟨by rw [memWalkOps, pteCallbackNvramForce_eq]; rfl, rfl⟩
  · exact ⟨by rw [memWalkOps, pteCallbackNvramIntensive_eq]; rfl, rfl⟩
  · exact ⟨by rw [memWalkOps, pteCallbackNvramWrite_eq]; rfl, rfl⟩

/-- `mem_walk` is a walk and some appended backups, whatever the quota: no more than
there are and than the quota has room for. -/
theorem memWalk_walk {P : Platform} {mode : FindMode} {π : Policy P}
    (hmode : memWalkPolicy P mode = some π) (n : Int) (σ : Sys) :
    let σ₁ := walkTier π.callback π.tier { σ with mod := σ.mod.setQuota .backup n }
    ∃ c, (c ≤ σ₁.mod.nBackup ∧ (0 < c → ((σ₁.mod.nFound + c : Nat) : Int) ≤ σ₁.mod.nToFind)) ∧
      (memWalk P n mode σ).1 = { σ₁ with mod := σ₁.mod.appendFound .backup c } := by
  simp only [memWalk, (memWalkPolicy_ops hmode).1]
  split
  · exact ⟨0, ⟨Nat.zero_le _, fun h => absurd h (Nat.lt_irrefl 0)⟩, rfl⟩
  · rename_i hopen
    split
    · refine ⟨_, ⟨Nat.min_le_right _ _, fun _ => ?_⟩, rfl⟩
      unfold Mod.quotaMet at hopen
      omega
    · exact ⟨0, ⟨Nat.zero_le _, fun h => absurd h (Nat.lt_irrefl 0)⟩, rfl⟩

/-- **The specification of `mem_walk`** for a quota in range: the reply so far is
the selection from the visits, and the return code says whether it is complete. -/
theorem memWalk_spec {P : Platform} {mode : FindMode} {π : Policy P}
    (hmode : memWalkPolicy P mode = some π) {n : Nat} (hn : n ≤ maxNFind) {σ : Sys}
    (hfound : σ.mod.nFound = 0) :
    (memWalk P n mode σ).1.mod.reply = (select π.classOf n (tierVisits π σ)).map Exam.info ∧
      ((memWalk P n mode σ).2 = 0 ∨ (memWalk P n mode σ).2 = -1) ∧
      ((memWalk P n mode σ).2 = 0 ↔ (select π.classOf n (tierVisits π σ)).length = n) ∧
      ∀ x ∈ select π.classOf n (tierVisits π σ), (memWalk P n mode σ).1.mod.visited x := by
  obtain ⟨hops, hspare⟩ := memWalkPolicy_ops hmode
  unfold memWalk
  simp only [hops]
  generalize hσ₀ : { σ with mod := σ.mod.setQuota .backup (n : Int) } = σ₀
  have hstart : Tracks π 0 n Pick.empty σ₀.mod := by
    subst hσ₀
    exact Tracks.start (by omega) (by simp [Mod.setQuota]) hfound
      (by simp [hspare, Mod.setQuota, Mod.nSpare])
  have hvisits : tierVisits π σ₀ = tierVisits π σ := by
    subst hσ₀
    cases hπ : π.tier <;> simp [tierVisits, Mod.setQuota, Mod.lastPid, Mod.lastAddr, hπ]
  have htr := walkTier_tracks hstart
  rw [hvisits] at htr
  generalize walkTier π.callback π.tier σ₀ = σ₁ at htr
  have hvisited : ∀ x ∈ select π.classOf n (tierVisits π σ), σ₁.mod.visited x := by
    intro x hx
    rw [← scan_select, List.mem_append] at hx
    refine htr.visited x (List.mem_append.mpr ?_)
    exact hx.imp_right List.mem_of_mem_take
  have hlen := length_scan_found π.classOf n (tierVisits π σ)
  have hmet := htr.quotaMet_iff
  have hnf : σ₁.mod.nFound = min n (primaries π.classOf (tierVisits π σ)).length := by
    rw [htr.nFound, hlen, Nat.zero_add]
  have hns : σ₁.mod.nBackup = σ₁.mod.nSpare π.spare := by rw [hspare]; rfl
  have hsel := htr.appendFound
  have hsellen : (select π.classOf n (tierVisits π σ)).length =
      σ₁.mod.nFound + min (n - σ₁.mod.nFound) (σ₁.mod.nSpare π.spare) := by
    have := congrArg List.length hsel
    simpa [Mod.reply] using this.symm
  split
  · -- the quota is met: no backup page is appended
    rename_i hq
    have hfull : σ₁.mod.nFound = n := by rw [hnf]; rw [hlen] at hmet; exact hmet.mp hq
    rw [hfull] at hsel hsellen
    exact ⟨by simpa using hsel, Or.inl rfl, iff_of_true rfl (by simpa using hsellen), hvisited⟩
  · rename_i hq
    have hopen : σ₁.mod.nFound < n := by
      rw [hnf]
      rw [hmet, hlen] at hq
      omega
    have hrem : (σ₁.mod.nToFind - (σ₁.mod.nFound : Int)).toNat = n - σ₁.mod.nFound := by
      rw [htr.quota]
      omega
    split
    · -- as many backup pages as the quota leaves room for
      simp only [hrem, hns]
      rw [hspare] at hsel hsellen ⊢
      refine ⟨hsel, by split <;> simp, ?_, fun x hx => Mod.visited_appendFound _ _ _ (hvisited x hx)⟩
      have hmet' : (σ₁.mod.appendFound .backup
          (min (n - σ₁.mod.nFound) (σ₁.mod.nSpare .backup))).quotaMet ↔
          (select π.classOf n (tierVisits π σ)).length = n := by
        unfold Mod.quotaMet
        rw [(Mod.appendFound_fixed _ _ _).nToFind, Mod.nFound_appendFound, htr.quota, hsellen]
        omega
      rw [← hmet']
      split <;> simp_all
    · -- the quota is open and there is nothing to append
      rename_i hnone
      have hzero : σ₁.mod.nSpare π.spare = 0 := by omega
      rw [hzero] at hsel hsellen
      refine ⟨by simpa using hsel, Or.inr rfl, iff_of_false (by simp) ?_, hvisited⟩
      rw [hsellen]
      omega

end Ambix.Hyb
