import Ambix.Logic.MixMFind
import Ambix.Logic.MixMInvariant
import Ambix.Logic.Origin

/-!
# What a MixM walk puts into its arrays

Five counting callbacks share one account. A call adds the page that it is made on, to
`found_addrs` or to the backups, or it adds nothing (`Lists.call`). So every entry behind the
slot that a walk starts at is a page of its tier (`walkTier_lists`), and the slots before it are
as they were (`walkTier_keeps`).
-/

namespace Ambix.MixM

open Ambix.Lib Ambix.Hyb

/-- A callback passes over what is not on its tier. -/
def Skips (P : Platform) (cb : PteEntry) (tier : Tier) : Prop :=
  ∀ pte addr (m : Mod), (m.nFound : Int) ≠ m.nToFind → offTier P tier.mode pte = true →
    (cb (some pte) addr m).mod = m

/-- The entries of `found_addrs` from slot `b` on and of a backup list, up to their counters. -/
structure Lists (spare : Spare) (b : Nat) (G : AddrInfo → Prop) (m : Mod) : Prop where
  found : ∀ i, b ≤ i → i < m.nFound → G (m.foundAddrs i)
  backup : ∀ i < m.nSpare spare, G (m.spareAddrs spare i)

/-- A page of a listed task, up to its dirty bit, on a tier. -/
def Taken (P : Platform) (tier : Tier) (k : Kernel) (tasks : List TaskPtr)
    (mm : TaskPtr → Option MmStruct) (y : AddrInfo) : Prop :=
  ∃ t ∈ tasks, y.pidRetval = k.pidOf t ∧ ∃ p, Shows mm t ⟨y.addr, p⟩ ∧
    offTier P tier.mode p = false

/-- The pages of a machine are those of `mm`, up to their dirty bits. -/
def ShownBy (mm : TaskPtr → Option MmStruct) (σ : Sys) : Prop :=
  ∀ t a, σ.mm t = some a → ∀ e ∈ a.ptes, Shows mm t e

theorem shownBy_self (σ : Sys) : ShownBy σ.mm σ := fun _ _ ha _ he => shows_self ha he

/-! ## The callbacks -/

section

variable {P : Platform} {mode : FindMode} {cb : PteEntry} {tier : Tier}

theorem memWalkOps_skips (hops : memWalkOps P mode = some (cb, tier)) : Skips P cb tier := by
  intro pte addr m hopen hoff
  cases mode with
  | dram =>
    obtain ⟨rfl, rfl⟩ := Prod.mk.inj (Option.some.inj hops)
    simp only [pteCallbackMem, if_neg hopen, show offTier P .dram pte = true from hoff, if_true,
      CbResult.pass]
  | nvram =>
    obtain ⟨rfl, rfl⟩ := Prod.mk.inj (Option.some.inj hops)
    simp only [pteCallbackNvramForce, if_neg hopen, show offTier P .nvram pte = true from hoff,
      if_true, CbResult.pass]
  | nvramIntensive =>
    obtain ⟨rfl, rfl⟩ := Prod.mk.inj (Option.some.inj hops)
    simp only [pteCallbackNvramIntensive, if_neg hopen, show offTier P .nvram pte = true from hoff,
      if_true, CbResult.pass]
  | nvramWrite =>
    obtain ⟨rfl, rfl⟩ := Prod.mk.inj (Option.some.inj hops)
    simp only [pteCallbackNvramWrite, if_neg hopen, show offTier P .nvram pte = true from hoff,
      if_true, CbResult.pass]
  | switch => simp [memWalkOps] at hops
  | nvramClear => simp [memWalkOps] at hops

theorem switch_skips (P : Platform) : Skips P (pteCallbackNvramSwitch P) .nvram := by
  intro pte addr m hopen hoff
  simp only [pteCallbackNvramSwitch, if_neg hopen, show offTier P .nvram pte = true from hoff,
    if_true, CbResult.pass]

end

/-! ## One call -/

section

variable {P : Platform} {G : AddrInfo → Prop} {m : Mod} {spare : Spare} {b : Nat}

theorem Lists.setLastAddr (h : Lists spare b G m) (tier : Tier) (addr : Nat) :
    Lists spare b G (m.setLastAddr tier addr) := by
  cases tier <;> cases spare <;> exact ⟨h.found, h.backup⟩

theorem Lists.setLastPid (h : Lists spare b G m) (tier : Tier) (i : Nat) :
    Lists spare b G (m.setLastPid tier i) := by
  cases tier <;> cases spare <;> exact ⟨h.found, h.backup⟩

theorem Lists.setCurrPid (h : Lists spare b G m) (p : Int) : Lists spare b G (m.setCurrPid p) := by
  cases spare <;> exact ⟨h.found, h.backup⟩

theorem Lists.log (h : Lists spare b G m) (ev : Event) : Lists spare b G (m.log ev) := by
  cases spare <;> exact ⟨h.found, h.backup⟩

/-- One entry more, behind those there are. -/
theorem set_holds {α : Type*} {a : Arr α} {H : α → Prop} {lo n : Nat}
    (h : ∀ i, lo ≤ i → i < n → H (a i)) {x : α} (hx : H x) :
    ∀ i, lo ≤ i → i < n + 1 → H (a.set n x i) := by
  intro i hlo hi
  by_cases heq : i = n
  · rw [heq, Arr.set_self]
    exact hx
  · rw [Arr.set_ne _ _ heq]
    exact h i hlo (Nat.lt_of_le_of_ne (Nat.lt_succ_iff.mp hi) heq)

theorem Lists.pushFound (h : Lists spare b G m) {x : AddrInfo} (hx : G x) :
    Lists spare b G (m.pushFound x) := by
  refine ⟨set_holds h.found hx, ?_⟩
  cases spare <;> exact h.backup

theorem Lists.pushSpare (h : Lists spare b G m) {x : AddrInfo} (hx : G x) :
    Lists spare b G (m.pushSpare spare x) := by
  have hmore := set_holds (fun i (_ : 0 ≤ i) hi => h.backup i hi) hx
  cases spare with
  | backup => exact ⟨h.found, fun i hi => hmore i (Nat.zero_le i) hi⟩
  | switchBackup => exact ⟨h.found, fun i hi => hmore i (Nat.zero_le i) hi⟩

variable {cb : PteEntry} {tier : Tier} {takes : Pte → Bool}

/-- **One call** lists the page that it is called on, or none. -/
theorem Lists.call (hcount : Counting cb tier spare takes) (hskips : Skips P cb tier) {pte : Pte}
    {addr : Nat} (h : Lists spare b G m)
    (hG : offTier P tier.mode pte = false → G ⟨addr, m.currPid⟩) :
    Lists spare b G (cb (some pte) addr m).mod := by
  by_cases hfull : (m.nFound : Int) = m.nToFind
  · rw [hcount.full _ _ _ hfull]
    exact h.setLastAddr tier addr
  · cases hoff : offTier P tier.mode pte with
    | true =>
      rw [hskips pte addr m hfull hoff]
      exact h
    | false =>
      cases htakes : takes pte with
      | true =>
        rw [hcount.taken _ _ _ hfull htakes]
        exact h.pushFound (hG hoff)
      | false =>
        rcases hcount.passed pte addr m hfull htakes with hmod | ⟨-, hmod⟩
        · rw [hmod]
          exact h
        · rw [hmod]
          exact h.pushSpare (hG hoff)

theorem lists_rule (hcount : Counting cb tier spare takes) (hskips : Skips P cb tier) (k : Kernel)
    (m₀ : Mod) (b : Nat) (mm : TaskPtr → Option MmStruct) :
    WalkRule k m₀ cb (Lists spare b (Taken P tier k m₀.tasks mm)) (Shows mm) where
  quiet := hcount.quiet
  pid _ p h := h.setCurrPid p
  call := by
    intro i hi e m _ hpid hE hI
    constructor
    · have htaken : offTier P tier.mode e.pte = false →
          Taken P tier k m₀.tasks mm ⟨e.addr, m.currPid⟩ :=
        fun hoff => ⟨_, Mod.mem_tasks.mpr ⟨i, hi, rfl⟩, hpid, e.pte, hE, hoff⟩
      have hcall := (hI.log (.visit (m₀.taskItems i) e.addr e.pte m.counters)).call hcount hskips
        htaken
      unfold invoke
      simp only
      split
      · exact hcall
      · exact hcall.log _
    · refine hE.congr ?_
      rw [invoke_commit_eq]
      rcases hcount.commit e.pte e.addr
        (m.log (.visit (m₀.taskItems i) e.addr e.pte m.counters)) with hc | hc
      · rw [hc]
        rfl
      · rw [hc]
        rfl

/-! ## A walk -/

variable {s s' : State}

/-- **A walk that comes back** has added pages of its tier, no more than its quota was short
of. -/
theorem walkTier_lists (hcount : Counting cb tier spare takes) (hskips : Skips P cb tier)
    (hlast : s.sys.mod.lastPid tier < s.sys.mod.nPids) (hspare : s.sys.mod.nSpare spare = 0)
    {mm : TaskPtr → Option MmStruct} (hshown : ShownBy mm s.sys)
    (hok : walkTier cb tier s = .ok s') :
    Lists spare s.sys.mod.nFound (Taken P tier s.sys.kernel s.sys.mod.tasks mm) s'.sys.mod ∧
      ShownBy mm s'.sys ∧ s'.sys.mod.nToFind = s.sys.mod.nToFind ∧
      s.sys.mod.nFound ≤ s'.sys.mod.nFound ∧
      ((s.sys.mod.nFound : Int) ≤ s.sys.mod.nToFind →
        (s'.sys.mod.nFound : Int) ≤ s.sys.mod.nToFind) := by
  have hstart : Lists spare s.sys.mod.nFound (Taken P tier s.sys.kernel s.sys.mod.tasks mm)
      s.sys.mod := by
    refine ⟨fun i hlo hi => by omega, fun i hi => ?_⟩
    rw [hspare] at hi
    exact absurd hi (Nat.not_lt_zero i)
  have hwalk := (doPageWalk_holds (lists_rule hcount hskips s.sys.kernel s.sys.mod
    s.sys.mod.nFound mm) hlast (s.sys.mod.lastAddr tier) ⟨rfl, .refl _, hstart, hshown⟩).1
  obtain ⟨k, hfill⟩ := walkTier_fill (counting_takes hcount) hok
  have hsys := walkTier_hyb hcount.quiet hok
  refine ⟨?_, ?_, ?_, ?_, fun hroom => ?_⟩
  · rw [hsys]
    exact hwalk.inv.setLastPid tier _
  · rw [hsys]
    exact hwalk.entries
  · have hquota := hwalk.fixed.nToFind
    rw [hsys]
    unfold Hyb.walkTier
    cases tier <;> exact hquota
  · rw [hfill, fill]
    split <;> omega
  · rw [hfill, fill, if_neg (by omega)]
    omega

/-- A DRAM walk leaves the slots below `n_found` and the backups of a NVRAM walk alone. -/
theorem walkTier_keeps (hcount : Counting cb tier .backup takes)
    (hlast : s.sys.mod.lastPid tier < s.sys.mod.nPids) (hok : walkTier cb tier s = .ok s') :
    (∀ i < s.sys.mod.nFound, s'.sys.mod.foundAddrs i = s.sys.mod.foundAddrs i) ∧
      s'.sys.mod.switchBackupAddrs = s.sys.mod.switchBackupAddrs ∧
      s'.sys.mod.nSwitchBackup = s.sys.mod.nSwitchBackup := by
  let I : Mod → Prop := fun m => s.sys.mod.nFound ≤ m.nFound ∧
    (∀ i < s.sys.mod.nFound, m.foundAddrs i = s.sys.mod.foundAddrs i) ∧
    m.switchBackupAddrs = s.sys.mod.switchBackupAddrs ∧
    m.nSwitchBackup = s.sys.mod.nSwitchBackup
  suffices h : I s'.sys.mod from h.2
  rw [walkTier_hyb hcount.quiet hok]
  refine walkTier_holds (I := I) (hcount.rule _ _ ?_ ?_ ?_ ?_ ?_) hlast ?_
    ⟨Nat.le_refl _, fun _ _ => rfl, rfl, rfl⟩
  · exact fun _ _ h => h
  · exact fun _ _ _ h => h
  · intro m addr h
    cases tier <;> exact h
  · rintro m x ⟨hle, hbelow, hswitch⟩
    refine ⟨Nat.le_succ_of_le hle, fun i hi => ?_, hswitch⟩
    rw [← hbelow i hi]
    exact Arr.set_ne _ _ (by omega)
  · exact fun m x _ h => h
  · intro m i h
    cases tier <;> exact h

end

end Ambix.MixM
