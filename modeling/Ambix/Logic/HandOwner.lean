import Ambix.Logic.Resume
import Ambix.Logic.Counts
import Ambix.Logic.OverQuota

/-!
# Whose address a hand holds

`HandOwned`: a tier's `last_addr` is 0 or was recorded while walking the process
`last_pid` denotes. Everything but a walk preserves it; a walk does when its
`HandSafe` condition holds, a condition on the page tables and the hand before it.
-/

namespace Ambix.Hyb

open Ambix.Lib Ambix.Lib.QuotaScan

/-- The hand's address is 0 or an address of the hand's process. -/
def Sys.HandOwned (σ : Sys) (tier : Tier) : Prop :=
  σ.mod.lastAddr tier = 0 ∨
    σ.mod.owner tier = σ.kernel.pidOf (σ.mod.taskItems (σ.mod.lastPid tier))

/-- The same registry and the same hands. -/
structure SameHands (m m' : Mod) : Prop where
  taskItems : m'.taskItems = m.taskItems
  nPids : m'.nPids = m.nPids
  lastPid : ∀ tier, m'.lastPid tier = m.lastPid tier
  lastAddr : ∀ tier, m'.lastAddr tier = m.lastAddr tier
  owner : m'.owner = m.owner

namespace SameHands

theorem refl (m : Mod) : SameHands m m := ⟨rfl, rfl, fun _ => rfl, fun _ => rfl, rfl⟩

theorem trans {m m' m'' : Mod} (h : SameHands m m') (h' : SameHands m' m'') : SameHands m m'' :=
  ⟨h'.taskItems.trans h.taskItems, h'.nPids.trans h.nPids,
    fun tier => (h'.lastPid tier).trans (h.lastPid tier),
    fun tier => (h'.lastAddr tier).trans (h.lastAddr tier), h'.owner.trans h.owner⟩

theorem foldl {α : Type*} {g : Mod → α → Mod} (h : ∀ m x, SameHands m (g m x)) (xs : List α)
    (m : Mod) : SameHands m (xs.foldl g m) := by
  induction xs generalizing m with
  | nil => exact .refl m
  | cons x xs ih => exact (h m x).trans (ih _)

/-- From the C variables. -/
theorem of_eq {m m' : Mod} (h1 : m'.taskItems = m.taskItems) (h2 : m'.nPids = m.nPids)
    (h3 : m'.lastPidDram = m.lastPidDram) (h4 : m'.lastPidNvram = m.lastPidNvram)
    (h5 : m'.lastAddrDram = m.lastAddrDram) (h6 : m'.lastAddrNvram = m.lastAddrNvram)
    (h7 : m'.owner = m.owner) : SameHands m m' :=
  ⟨h1, h2, fun tier => by cases tier <;> assumption, fun tier => by cases tier <;> assumption, h7⟩

theorem setQuota (m : Mod) (s : Spare) (n : Int) : SameHands m (m.setQuota s n) := by
  cases s <;> exact .of_eq rfl rfl rfl rfl rfl rfl rfl

theorem setFoundPid (m : Mod) (i : Nat) (p : Int) : SameHands m (m.setFoundPid i p) :=
  .of_eq rfl rfl rfl rfl rfl rfl rfl

theorem setNFound (m : Mod) (n : Nat) : SameHands m (m.setNFound n) :=
  .of_eq rfl rfl rfl rfl rfl rfl rfl

theorem pushRetval (m : Mod) (ret : Int) : SameHands m (m.pushRetval ret) :=
  .of_eq rfl rfl rfl rfl rfl rfl rfl

theorem begun (σ : Sys) : SameHands σ.mod σ.begun.mod :=
  .of_eq rfl rfl rfl rfl rfl rfl rfl

theorem appendFound (m : Mod) (s : Spare) (c : Nat) : SameHands m (m.appendFound s c) := by
  refine foldl (fun m i => ?_) _ m
  exact .of_eq rfl rfl rfl rfl rfl rfl rfl

theorem shift (m : Mod) (is : List Nat) (src dst : Nat) :
    SameHands m (is.foldl (fun m i => m.moveFound (dst + i) (src + i)) m) := by
  refine foldl (fun m i => ?_) _ m
  exact .of_eq rfl rfl rfl rfl rfl rfl rfl

theorem fillNvram (m : Mod) (lo n : Nat) : SameHands m (m.fillNvram lo n) := by
  refine foldl (fun m i => ?_) _ m
  exact .of_eq rfl rfl rfl rfl rfl rfl rfl

theorem pairUp (v d : Nat) (m : Mod) : SameHands m (pairUp v d m) := by
  unfold Ambix.Hyb.pairUp
  split
  · exact .refl m
  · split
    · simp only
      split
      · exact (((setFoundPid m _ _).trans (shift _ _ _ _)).trans (setNFound _ _)).trans
          (appendFound _ _ _)
      · exact appendFound m _ _
    · split
      · exact (((shift m _ _ _).trans (fillNvram _ _ _)).trans (setFoundPid _ _ _)).trans
          (setNFound _ _)
      · exact (setFoundPid m _ _).trans (setNFound _ _)

end SameHands

section

variable {σ σ' : Sys}

theorem Sys.HandOwned.same {tier : Tier} (h : σ.HandOwned tier) (hk : σ'.kernel = σ.kernel)
    (hs : SameHands σ.mod σ'.mod) : σ'.HandOwned tier := by
  unfold Sys.HandOwned at h ⊢
  rwa [hs.lastAddr, hs.owner, hs.taskItems, hs.lastPid, hk]

/-- Removing tasks: a hand whose process goes is at address 0. -/
theorem Sys.HandOwned.follows {tier : Tier} (h : σ.HandOwned tier) {keep : TaskPtr → Bool}
    {m' : Mod} (hm : Anchored σ.mod) (hf : Follows keep σ.mod m') (ha : Anchored m')
    (howner : m'.owner = σ.mod.owner) : ({ σ with mod := m' } : Sys).HandOwned tier := by
  by_cases hzero : m'.lastAddr tier = 0
  · exact Or.inl hzero
  · have haddr := hf.addr tier
    rcases hm.hand tier with hlast | ⟨_, _, hz⟩
    · rw [Mod.head?_round hlast] at haddr
      simp only [Option.all_some] at haddr
      by_cases hkeep : keep (σ.mod.taskItems (σ.mod.lastPid tier)) = true
      · rw [if_pos hkeep] at haddr
        have hlast' : m'.lastPid tier < m'.nPids :=
          (ha.hand tier).resolve_right fun hz => hzero hz.2.2
        have hhead := Mod.head?_round hlast'
        have htask : m'.taskItems (m'.lastPid tier) = σ.mod.taskItems (σ.mod.lastPid tier) := by
          cases hr : σ.mod.round tier with
          | nil =>
            have := Mod.head?_round hlast
            simp [hr] at this
          | cons t ts =>
            have ht := Mod.head?_round hlast
            rw [hr, List.head?_cons, Option.some.injEq] at ht
            rw [hf.round tier, hr, List.filter_cons_of_pos (ht ▸ hkeep), List.head?_cons,
              Option.some.injEq] at hhead
            exact hhead.symm.trans ht
        rcases h with h | h
        · exact absurd (haddr.trans h) hzero
        · exact Or.inr (by simp only [howner, htask, h])
      · -- the hand's process goes, and its address with it
        rw [if_neg hkeep] at haddr
        exact absurd haddr hzero
    · -- an empty registry has its hands at address 0
      rw [hz, ite_self] at haddr
      exact absurd haddr hzero

theorem Registered.refreshed_owned (h : Registered σ) {tier : Tier} (hown : σ.HandOwned tier) :
    σ.refreshed.HandOwned tier := by
  obtain ⟨hf, ha⟩ := refreshPids_follows σ.kernel h.begun.anchored
  have hbegun : σ.begun.HandOwned tier := hown.same rfl (.begun σ)
  exact hbegun.follows h.begun.anchored hf ha (refreshPids_work σ.kernel σ.begun.mod).owner

end

/-! ## Walks -/

section

variable {P : Platform} (π : Policy P)

/-- A walk with quota `n` keeps the hand in order: it moves the hand's address on, or
stops in the process the old address belongs to. -/
def HandSafe (n : Nat) (σ : Sys) : Prop :=
  0 < n → n ≤ (primaries π.classOf (tierVisits π σ)).length →
    σ.MovesOn π n ∨ ∀ x, (σ.swept π n).getLast? = some x →
      σ.mod.lastAddr π.tier = 0 ∨ σ.mod.owner π.tier = x.pid

variable {π} {σ : Sys}

/-- A quota that is not met leaves the hand alone. -/
theorem tierStop_none {q : Nat} (h : (primaries π.classOf (tierVisits π σ)).length < q) :
    tierStop π q σ = none := by
  have hstop : ∀ (ss : List Stretch) (mm : TaskPtr → Option MmStruct) (r : Nat),
      (primaries π.classOf (visits π σ.kernel σ.mod.taskItems ss mm)).length < r →
        stop π σ.kernel σ.mod.taskItems r ss mm = none := by
    intro ss
    induction ss with
    | nil => exact fun _ _ _ => rfl
    | cons s ss ih =>
      intro mm r hr
      rw [visits, primaries_append, List.length_append] at hr
      rw [stop, if_neg (by omega)]
      exact ih _ _ (by omega)
  exact hstop _ _ _ h

/-- **What a walk with quota `q` does to its hand**: the address and the owner it
leaves, against the process it stopped in. -/
theorem Halt.owned_iff {q : Nat} {s : Stretch} {pre post : List Stretch}
    {mm' : TaskPtr → Option MmStruct} {xs ys : List Exam}
    (h : Halt π q σ pre s post mm' xs ys) (hpids : σ.distinctPids)
    (hlast : σ.mod.lastPid π.tier < σ.mod.nPids) {x : Exam}
    (hx : (σ.swept π q).getLast? = some x) :
    ((ys.head?.map Exam.addr).getD (σ.mod.lastAddr π.tier) = 0 ∨
        (ys.head?.map Exam.pid).getD (σ.mod.owner π.tier) =
          σ.kernel.pidOf (σ.mod.taskItems s.index)) ↔
      σ.MovesOn π q ∨ σ.mod.lastAddr π.tier = 0 ∨ σ.mod.owner π.tier = x.pid := by
  have hxp := (mem_examsOf (h.mem_stretch (Or.inl (h.last hx)))).1
  rw [h.movesOn_iff hpids hlast, ← hxp]
  cases ys with
  | nil => simp
  | cons y ys =>
    have hyp := (mem_examsOf (h.mem_stretch (Or.inr List.mem_cons_self))).1
    simp [hyp, hxp]

theorem walkTier_owned_open {base q : Nat} (h : Tracks π base q Pick.empty σ.mod)
    (hpids : σ.distinctPids) (hlast : σ.mod.lastPid π.tier < σ.mod.nPids)
    (hown : σ.HandOwned π.tier) (hsafe : HandSafe π q σ) :
    (walkTier π.callback π.tier σ).HandOwned π.tier := by
  obtain ⟨hpid, hswept⟩ := walkTier_swept h
  have hitems := (walkTier_registry π.quiet π.tier hlast).1
  have hkernel := walkTier_kernel π.callback π.quiet π.tier σ
  have haddr := hswept.addr
  have howner := hswept.owner
  have hsame : (tierStop π q σ).bind Prod.snd = none →
      (walkTier π.callback π.tier σ).mod.lastPid π.tier = σ.mod.lastPid π.tier →
        (walkTier π.callback π.tier σ).HandOwned π.tier := by
    intro hnone hlp
    rw [hnone] at haddr howner
    rw [Sys.HandOwned, haddr, howner, hkernel, hitems, hlp]
    exact hown
  by_cases hmet : q ≤ (primaries π.classOf (tierVisits π σ)).length
  · rcases Nat.eq_zero_or_pos q with rfl | hq
    · -- nothing asked for: the first page of the first stretch, if any, is recorded
      have hstop : tierStop π 0 σ = some (⟨σ.mod.lastPid π.tier, σ.mod.lastAddr π.tier, maxAddress⟩,
          (examsOf σ.kernel σ.mod.taskItems σ.mm
            ⟨σ.mod.lastPid π.tier, σ.mod.lastAddr π.tier, maxAddress⟩).head?) := by
        simp [tierStop, cycle, stop, unexamined]
      rw [hstop] at hpid haddr howner hsame
      cases hhead : (examsOf σ.kernel σ.mod.taskItems σ.mm
          ⟨σ.mod.lastPid π.tier, σ.mod.lastAddr π.tier, maxAddress⟩).head? with
      | none => exact hsame (by simp [hhead]) hpid
      | some y =>
        have hyp := (mem_examsOf (List.mem_of_head? hhead)).1
        right
        rw [howner, hkernel, hitems, hpid]
        simp [hhead, hyp]
    · -- the walk stops inside a stretch, at the page that met the quota
      obtain ⟨pre, s, post, mm', xs, ys, hhalt⟩ := exists_halt hq hmet
      obtain ⟨x, hx, _⟩ := hhalt.exists_last
      rw [hhalt.stop] at hpid haddr howner
      rw [Sys.HandOwned, haddr, howner, hkernel, hitems, hpid]
      refine (hhalt.owned_iff hpids hlast hx).mpr ?_
      exact (hsafe hq hmet).imp_right fun hsafe => hsafe x hx
  · have hnone := tierStop_none (Nat.lt_of_not_le hmet)
    rw [hnone] at hpid
    exact hsame (by simp [hnone]) hpid

/-- A walk whose quota is below its start leaves both hands where they are. -/
theorem walkTier_over_hands {b : Nat} {n : Int} {st : Pick Exam} (hneg : n < 0)
    (h : Filled π b st σ.mod) (hq : σ.mod.nToFind = b + n)
    (hlast : σ.mod.lastPid π.tier < σ.mod.nPids) :
    SameHands σ.mod (walkTier π.callback π.tier σ).mod := by
  obtain ⟨_, hswept, hlp, _⟩ := walkTier_first hneg h hq
  obtain ⟨hitems, hpids, _, hother⟩ := walkTier_registry π.quiet π.tier hlast
  refine ⟨hitems, hpids, fun tier => ?_, fun tier => ?_, funext fun tier => ?_⟩
  · by_cases htier : tier = π.tier
    · exact htier ▸ hlp
    · exact hother tier htier
  · by_cases htier : π.tier = tier
    · exact htier ▸ hswept.addr
    · exact (walkTier_lastAddr π htier hlast).1
  · by_cases htier : π.tier = tier
    · exact htier ▸ hswept.owner
    · exact (walkTier_lastAddr π htier hlast).2

/-- A walk leaves the other tier's hand alone. -/
theorem walkTier_other (hlast : σ.mod.lastPid π.tier < σ.mod.nPids) {tier : Tier}
    (hne : tier ≠ π.tier) (hown : σ.HandOwned tier) :
    (walkTier π.callback π.tier σ).HandOwned tier := by
  obtain ⟨hitems, _, _, hother⟩ := walkTier_registry π.quiet π.tier hlast
  obtain ⟨haddr, howner⟩ := walkTier_lastAddr π hne.symm hlast
  rw [Sys.HandOwned, haddr, howner, hother tier hne, hitems,
    walkTier_kernel π.callback π.quiet π.tier σ]
  exact hown

/-- **A walk with any quota keeps both hands in order if it is safe.** -/
theorem walkTier_owned (base : Nat) {n : Int} (hsmall : 0 ≤ n → base + n ≤ maxNFind)
    (hquota : σ.mod.nToFind = base + n) (hfound : σ.mod.nFound = base)
    (hspare : σ.mod.nSpare π.spare = 0) (hpids : σ.distinctPids)
    (hlast : σ.mod.lastPid π.tier < σ.mod.nPids) (hown : ∀ tier, σ.HandOwned tier)
    (hsafe : HandSafe π n.toNat σ) (tier : Tier) :
    (walkTier π.callback π.tier σ).HandOwned tier := by
  by_cases htier : tier = π.tier
  · subst htier
    rcases Int.lt_or_le n 0 with hneg | hpos
    · have hhands := walkTier_over_hands hneg (.start hfound hspare) hquota hlast
      exact (hown _).same (walkTier_kernel π.callback π.quiet π.tier σ) hhands
    · have hstart : Tracks π base n.toNat Pick.empty σ.mod :=
        Tracks.start (by have := hsmall hpos; omega) (by omega) hfound hspare
      exact walkTier_owned_open hstart hpids hlast (hown _) hsafe
  · exact walkTier_other hlast htier (hown tier)

end

/-! ## Requests -/

section

variable {P : Platform} {σ : Sys}

/-- A FIND keeps both hands in order: each of its walks is safe. -/
def FindSafe (P : Platform) (req : Req) (σ : Sys) : Prop :=
  ∀ mode, IsFind req mode → 0 < σ.mod.nPids →
    match memWalkPolicy P mode with
    | some π => HandSafe π (count maxNFind req) σ
    | none => mode = .switch →
      HandSafe (nvramSwitchPolicy P) (count maxNSwitch req) σ ∧
        HandSafe (memPolicy P) (min (count maxNSwitch req)
          (σ.visitsPrimary (nvramSwitchPolicy P) + σ.visitsEligible (nvramSwitchPolicy P))) σ

theorem HandSafe.congr {π : Policy P} {n : Nat} {σ' : Sys} (h : HandSafe π n σ)
    (hvisits : tierVisits π σ' = tierVisits π σ)
    (haddr : σ'.mod.lastAddr π.tier = σ.mod.lastAddr π.tier)
    (howner : σ'.mod.owner π.tier = σ.mod.owner π.tier) : HandSafe π n σ' := by
  unfold HandSafe Sys.MovesOn Sys.swept Sys.leftOver at h ⊢
  rwa [hvisits, haddr, howner]

/-- `clear_walk` leaves the hands alone. -/
theorem clearTasks_hands (is : List Nat) (his : ∀ i ∈ is, i < σ.mod.nPids) :
    (clearTasks P is σ).1.kernel = σ.kernel ∧
      SameHands σ.mod (clearTasks P is σ).1.mod := by
  have hrule : WalkRule σ.kernel σ.mod (pteCallbackNvramClear P) (SameHands σ.mod)
      fun _ _ => True := by
    refine ⟨clear_quiet P, fun m p h => h.trans (.of_eq rfl rfl rfl rfl rfl rfl rfl), ?_⟩
    intro i _ e m _ _ _ h
    refine ⟨h.trans ?_, trivial⟩
    unfold invoke
    simp only
    split
    · rw [pteCallbackNvramClear_mod]
      exact .of_eq rfl rfl rfl rfl rfl rfl rfl
    · simp only [pteCallbackNvramClear_mod]
      exact .of_eq rfl rfl rfl rfl rfl rfl rfl
  have h := clearTasks_holds hrule his ⟨rfl, .refl _, .refl _, fun _ _ _ _ _ => trivial⟩
  exact ⟨h.kernel, h.inv⟩

/-- What the NVRAM walk of a switch leaves to the DRAM walk. -/
structure MidWalk (P : Platform) (n : Int) (σ σ₁ : Sys) : Prop where
  registered : Registered σ₁
  pos : 0 < σ₁.mod.nPids
  ready : DramReady σ σ₁
  quota : 0 ≤ n → σ₁.mod.nFound ≤ n.toNat ∧
    min (σ₁.mod.nFound + σ₁.mod.nSwitchBackup) n.toNat =
      min n.toNat (σ.visitsPrimary (nvramSwitchPolicy P) +
        σ.visitsEligible (nvramSwitchPolicy P))

theorem switchMid_hands (n : Int) (σ : Sys) : SameHands σ.mod (switchMid n σ).mod := by
  have hsep := (SameHands.setFoundPid σ.mod σ.mod.nFound 0).trans
    (.setNFound _ (σ.mod.nFound + 1))
  exact hsep.trans (.setQuota _ .backup _)

theorem midWalk (h : Registered σ) (hpos : 0 < σ.mod.nPids) (hfound : σ.mod.nFound = 0) {n : Int}
    (hn : n ≤ maxNSwitch) :
    MidWalk P n σ (walkTier (nvramSwitchPolicy P).callback .nvram
      { σ with mod := σ.mod.setQuota .switchBackup n }) := by
  have hlast := h.lastPid_lt hpos
  have hready := dramReady (P := P) n hlast
  have hwalked : Held σ.mod (walkTier (nvramSwitchPolicy P).callback .nvram
      { σ with mod := σ.mod.setQuota .switchBackup n }).mod :=
    ((Held.refl hlast).setQuota .switchBackup n).trans
      (walkTier_held (nvramSwitchPolicy P) (σ := { σ with mod := σ.mod.setQuota .switchBackup n })
        hlast)
  have htracks := fun hn₀ : 0 ≤ n => nvramTracks (P := P) (n := n.toNat) (σ := σ) (by omega) hfound
  refine ⟨h.held hready.kernel hwalked.taskItems hwalked.nPids hwalked.hand,
    hwalked.nPids ▸ hpos, hready, fun hn₀ => ?_⟩
  have htr := htracks hn₀
  rw [Int.toNat_of_nonneg hn₀] at htr
  generalize walkTier (nvramSwitchPolicy P).callback .nvram _ = σ₁ at htr ⊢
  have hsecond := second_quota (nvramSwitchPolicy P).classOf n.toNat
    (tierVisits (nvramSwitchPolicy P) σ)
  have hv : σ₁.mod.nFound = _ := htr.nFound
  have hsb : σ₁.mod.nSwitchBackup = _ := htr.nSpare
  rw [Nat.zero_add] at hv
  rw [← hv, ← hsb] at hsecond
  refine ⟨hv ▸ htr.bound, hsecond.trans ?_⟩
  simp only [Sys.visitsPrimary, Sys.visitsEligible]
  omega

/-- The pages the DRAM walk may take fit behind the separator. -/
theorem MidWalk.room {n : Int} {σ₁ : Sys} (h : MidWalk P n σ σ₁) (hn : n ≤ maxNSwitch)
    (hq : 0 ≤ intMin ((σ₁.mod.nFound : Int) + (σ₁.mod.nSwitchBackup : Int)) n) :
    ((σ₁.mod.nFound + 1 : Nat) : Int) +
      intMin ((σ₁.mod.nFound : Int) + (σ₁.mod.nSwitchBackup : Int)) n ≤ maxNFind := by
  have hmaxS := maxNSwitch_eq
  have hmaxF := maxNFind_eq
  rw [intMin_eq_min] at hq ⊢
  have := (h.quota (by omega)).1
  omega

/-- A negative count asks the DRAM walk for nothing, so its hand is safe. -/
theorem MidWalk.handSafe {n : Int} {σ₁ : Sys} (h : MidWalk P n σ σ₁)
    (hD : HandSafe (memPolicy P) (min n.toNat
      (σ.visitsPrimary (nvramSwitchPolicy P) + σ.visitsEligible (nvramSwitchPolicy P))) σ) :
    HandSafe (memPolicy P) (intMin ((σ₁.mod.nFound : Int) + (σ₁.mod.nSwitchBackup : Int)) n).toNat
      (switchMid n σ₁) := by
  rcases Int.lt_or_le n 0 with hneg | hn₀
  · have hzero : (intMin ((σ₁.mod.nFound : Int) + (σ₁.mod.nSwitchBackup : Int)) n).toNat = 0 := by
      rw [intMin_eq_min]
      omega
    rw [hzero]
    exact fun hc => absurd hc (Nat.lt_irrefl 0)
  · have hs₂ := switchMid_hands n σ₁
    have hq : (intMin ((σ₁.mod.nFound : Int) + (σ₁.mod.nSwitchBackup : Int)) n).toNat =
        min n.toNat (σ.visitsPrimary (nvramSwitchPolicy P) +
          σ.visitsEligible (nvramSwitchPolicy P)) := by
      rw [← (h.quota hn₀).2, intMin_eq_min]
      omega
    rw [hq]
    exact hD.congr h.ready.visits ((hs₂.lastAddr .dram).trans h.ready.lastAddr)
      ((congrFun hs₂.owner .dram).trans h.ready.owner)

theorem switchWalk_owned (h : Registered σ) (hpos : 0 < σ.mod.nPids) (hfound : σ.mod.nFound = 0)
    (hown : ∀ tier, σ.HandOwned tier) {n : Int} (hn : n ≤ maxNSwitch)
    (hN : HandSafe (nvramSwitchPolicy P) n.toNat σ)
    (hD : HandSafe (memPolicy P) (min n.toNat
      (σ.visitsPrimary (nvramSwitchPolicy P) + σ.visitsEligible (nvramSwitchPolicy P))) σ)
    (tier : Tier) : (switchWalk P n σ).1.HandOwned tier := by
  have hlast := h.lastPid_lt hpos
  have hmaxS := maxNSwitch_eq
  have hmaxF := maxNFind_eq
  have hs₀ : SameHands σ.mod (σ.mod.setQuota .switchBackup n) := .setQuota σ.mod .switchBackup n
  have hmid := midWalk (P := P) h hpos hfound hn
  have hown₁ : ∀ tier, (walkTier (nvramSwitchPolicy P).callback .nvram
      { σ with mod := σ.mod.setQuota .switchBackup n }).HandOwned tier := by
    refine walkTier_owned (π := nvramSwitchPolicy P) 0 (fun _ => by omega)
      (by simp [Mod.setQuota]) hfound rfl h.distinct ?_ (fun tier => (hown tier).same rfl hs₀)
      (hN.congr ?_ (hs₀.lastAddr _) (congrFun hs₀.owner _))
    · rw [hs₀.lastPid, hs₀.nPids]
      exact hlast _
    · exact tierVisits_congr _ rfl rfl hs₀.taskItems hs₀.nPids (hs₀.lastPid _) (hs₀.lastAddr _)
  rw [switchWalk_phases]
  generalize walkTier (nvramSwitchPolicy P).callback .nvram
    { σ with mod := σ.mod.setQuota .switchBackup n } = σ₁ at hmid hown₁
  simp only
  split
  · exact (hown₁ tier).same rfl ((SameHands.setFoundPid _ _ _).trans (.setNFound _ _))
  · -- the separator moves no hand, and `pairUp` none after the second walk
    have hs₂ := switchMid_hands n σ₁
    have hreg₂ : Registered (switchMid n σ₁) :=
      hmid.registered.held rfl hs₂.taskItems hs₂.nPids fun tier => by
        rw [hs₂.lastPid, hs₂.nPids]
        exact hmid.registered.lastPid_lt hmid.pos tier
    have hown₂ := walkTier_owned (π := memPolicy P) (σ := switchMid n σ₁) (σ₁.mod.nFound + 1)
      (n := intMin ((σ₁.mod.nFound : Int) + (σ₁.mod.nSwitchBackup : Int)) n)
      (hmid.room hn) rfl rfl rfl hreg₂.distinct (hreg₂.lastPid_lt (hs₂.nPids ▸ hmid.pos) _)
      (fun tier => (hown₁ tier).same rfl hs₂) (hmid.handSafe hD)
    exact (hown₂ tier).same rfl (.pairUp _ _ _)

theorem memWalk_owned (h : Registered σ) (hpos : 0 < σ.mod.nPids) (hfound : σ.mod.nFound = 0)
    (hown : ∀ tier, σ.HandOwned tier) {mode : FindMode} {π : Policy P}
    (hπ : memWalkPolicy P mode = some π) {n : Int} (hn : n ≤ maxNFind)
    (hsafe : HandSafe π n.toNat σ) (tier : Tier) : (memWalk P n mode σ).1.HandOwned tier := by
  have hs₀ : SameHands σ.mod (σ.mod.setQuota .backup n) := .setQuota σ.mod .backup n
  obtain ⟨c, _, hwalk⟩ := memWalk_walk hπ n σ
  have hwalked : (walkTier π.callback π.tier
      { σ with mod := σ.mod.setQuota .backup n }).HandOwned tier := by
    refine walkTier_owned (σ := { σ with mod := σ.mod.setQuota .backup n }) 0 (n := n)
      (fun _ => by omega) (by simp [Mod.setQuota]) hfound ?_ ?_ ?_
      (fun tier => (hown tier).same rfl hs₀)
      (hsafe.congr ?_ (hs₀.lastAddr _) (congrFun hs₀.owner _)) tier
    · rw [(memWalkPolicy_ops hπ).2]
      rfl
    · exact h.distinct
    · rw [hs₀.lastPid, hs₀.nPids]
      exact h.lastPid_lt hpos _
    · exact tierVisits_congr _ rfl rfl hs₀.taskItems hs₀.nPids (hs₀.lastPid _) (hs₀.lastAddr _)
  rw [hwalk]
  exact hwalked.same rfl (.appendFound _ _ _)

theorem toNat_intMin (cap : Nat) (req : Req) :
    (intMin cap req.pidN.toInt).toNat = count cap req := by
  rw [intMin_eq_min, count]
  omega

theorem processFind_owned (h : Registered σ) (hfound : σ.mod.nFound = 0)
    (hown : ∀ tier, σ.HandOwned tier) {req : Req} (hop : OpCode.ofCode req.opCode = some .find)
    (hsafe : FindSafe P req σ) (tier : Tier) : (processFind P req σ).1.HandOwned tier := by
  by_cases hpos : 0 < σ.mod.nPids
  · cases hmode : FindMode.ofCode req.mode with
    | none =>
      rw [processFind_default hmode]
      exact hown tier
    | some mode =>
      have hsafe := hsafe mode ⟨hop, hmode⟩ hpos
      rcases memWalkPolicy_cases P mode with ⟨π, hπ⟩ | rfl | rfl
      · simp only [hπ] at hsafe
        rw [processFind_plain hπ hmode hpos]
        refine memWalk_owned h hpos hfound hown hπ ?_ ?_ tier
        · rw [intMin_eq_min]
          omega
        · rwa [toNat_intMin]
      · obtain ⟨hN, hD⟩ := hsafe rfl
        rw [← toNat_intMin] at hN hD
        rw [processFind_switch hmode hpos]
        exact switchWalk_owned h hpos hfound hown (by rw [intMin_eq_min]; omega) hN hD tier
      · rw [processFind_clear hmode hpos]
        obtain ⟨hkernel, hsame⟩ := clearTasks_hands (P := P) (σ := σ) (List.range σ.mod.nPids)
          fun i hi => List.mem_range.mp hi
        exact (hown tier).same hkernel hsame
  · rw [processFind_empty req hpos]
    exact hown tier

theorem bindPid_owner (k : Kernel) (pid : Int) (m : Mod) : (bindPid k pid m).1.owner = m.owner := by
  have hfind : (findTargetProcess k pid m).1.owner = m.owner := by
    unfold findTargetProcess
    split
    · rfl
    · split
      · rfl
      · simp only
        split
        · rfl
        · split <;> rfl
  unfold bindPid
  split
  · rfl
  · simp only
    split <;> exact hfind

theorem unbindPid_owner (k : Kernel) (pid : Int) (m : Mod) :
    (unbindPid k pid m).1.owner = m.owner := by
  unfold unbindPid
  split
  · rfl
  · split
    · rfl
    · exact (updatePidList_work _ m).owner

theorem bindPid_owned (h : Registered σ) (hown : ∀ tier, σ.HandOwned tier) {pid : Int}
    (hpid : pid ≤ maxPidN) (tier : Tier) :
    ({ σ with mod := (bindPid σ.kernel pid σ.mod).1 } : Sys).HandOwned tier := by
  by_cases hb : ∃ t, Bindable σ.kernel σ.mod pid t
  · obtain ⟨t, hb⟩ := hb
    obtain ⟨_, htasks, hlast, haddr⟩ := bindPid_of_bindable h.ne_null hpid hb
    rcases h.hand tier with hlt | ⟨_, _, hzero⟩
    · -- the task under the hand is where it was
      have hitem : (bindPid σ.kernel pid σ.mod).1.taskItems (σ.mod.lastPid tier) =
          σ.mod.taskItems (σ.mod.lastPid tier) := by
        have hlen : (bindPid σ.kernel pid σ.mod).1.nPids = σ.mod.nPids + 1 := by
          simpa using congrArg List.length htasks
        have hget := Mod.getElem?_tasks (m := (bindPid σ.kernel pid σ.mod).1)
          (i := σ.mod.lastPid tier) (by omega)
        rw [htasks, List.getElem?_append_left (by simpa using hlt), Mod.getElem?_tasks hlt,
          Option.some.injEq] at hget
        exact hget.symm
      rw [Sys.HandOwned]
      simp only [hlast, haddr, bindPid_owner, hitem]
      exact hown tier
    · exact Or.inl ((haddr tier).trans hzero)
  · obtain ⟨_, hf, ha⟩ := bindPid_of_not h.anchored h.ne_null hpid fun t ht => hb ⟨t, ht⟩
    exact (hown tier).follows h.anchored hf ha (bindPid_owner _ _ _)

theorem unbindPid_owned (h : Registered σ) (hown : ∀ tier, σ.HandOwned tier) {pid : Int}
    (hpid : pid ≤ maxPidN) (tier : Tier) :
    ({ σ with mod := (unbindPid σ.kernel pid σ.mod).1 } : Sys).HandOwned tier := by
  by_cases hl : 0 < pid ∧ pid ∈ σ.mod.tasks.map σ.kernel.pidOf
  · obtain ⟨_, hf, ha⟩ := unbindPid_of_listed h.anchored h.ne_null h.distinct hl.1 hpid hl.2
    exact (hown tier).follows h.anchored hf ha (unbindPid_owner _ _ _)
  · rw [unbindPid_of_not h.ne_null hl]
    exact hown tier

/-- A request keeps both hands in order: if it is a FIND, its walks are safe. -/
def ReqSafe (P : Platform) (req : Option Req) (σ : Sys) : Prop :=
  ∀ r ∈ req, OpCode.ofCode r.opCode = some .find → FindSafe P r σ.refreshed

/-- The return-code entry moves no hand. -/
theorem processReq_hands (req : Option Req) (σ : Sys) :
    SameHands (processBody P req σ).1.mod (processReq P req σ).sys.mod := by
  unfold processReq
  simp only
  split
  · exact .pushRetval _ _
  · exact .refl _

/-- A registry with no task gone is refreshed to itself. -/
theorem refreshPids_settled {k : Kernel} {m : Mod} (h : ∀ t ∈ m.tasks, alive k t = true) :
    SameHands m (refreshPids k m) := by
  have hloop : ∀ fuel i (m' : Mod), SameHands m m' → SameHands m (refreshLoop k fuel i m') := by
    intro fuel
    induction fuel with
    | zero => exact fun _ _ h => h
    | succ fuel ih =>
      intro i m' hm'
      unfold refreshLoop
      split
      · rename_i hi
        have halive := h (m'.taskItems i) (by
          rw [hm'.taskItems]
          exact Mod.mem_tasks.mpr ⟨i, hm'.nPids ▸ hi, rfl⟩)
        simp only [alive, Bool.and_eq_true, decide_eq_true_eq] at halive
        rw [if_neg halive.1, if_neg halive.2]
        exact ih _ _ (hm'.trans (.of_eq rfl rfl rfl rfl rfl rfl rfl))
      · exact hm'
  exact hloop _ _ m (.refl m)

theorem refreshed_alive (h : Registered σ) : ∀ t ∈ σ.refreshed.mod.tasks, alive σ.kernel t = true := by
  intro t ht
  have htasks : σ.refreshed.mod.tasks = σ.mod.tasks.filter (alive σ.kernel) :=
    (refreshPids_follows σ.kernel h.begun.anchored).1.tasks
  rw [htasks] at ht
  exact (List.mem_filter.mp ht).2

/-- A request after which nobody exits is followed by the hands it left. -/
theorem SameHands.refreshed (h : Registered σ) {τ : Sys} (hkernel : τ.kernel = σ.kernel)
    (htasks : τ.mod.tasks = σ.refreshed.mod.tasks) : SameHands τ.mod τ.refreshed.mod := by
  refine (SameHands.begun τ).trans (refreshPids_settled fun t ht => ?_)
  rw [hkernel]
  exact refreshed_alive h t (htasks ▸ ht)

/-! ## Negative counts -/

/-- `switch_walk` with a negative count. -/
theorem switchWalk_over_hands {n : Int} (hneg : n < 0) (hfound : σ.mod.nFound = 0)
    (hlast : ∀ tier, σ.mod.lastPid tier < σ.mod.nPids) :
    SameHands σ.mod (switchWalk P n σ).1.mod := by
  have hstart : SameHands σ.mod (σ.mod.setQuota .switchBackup n) := .setQuota _ _ _
  have hnvram := hstart.trans (walkTier_over_hands (π := nvramSwitchPolicy P)
    (σ := { σ with mod := σ.mod.setQuota .switchBackup n }) (b := 0) hneg
    (.start hfound rfl) (by simp [Mod.setQuota]) (by
      rw [hstart.lastPid, hstart.nPids]
      exact hlast .nvram))
  have htier : (nvramSwitchPolicy P).tier = .nvram := rfl
  rw [htier] at hnvram
  rw [switchWalk_phases]
  generalize walkTier (nvramSwitchPolicy P).callback .nvram
    { σ with mod := σ.mod.setQuota .switchBackup n } = σ₁ at hnvram
  simp only
  split
  · exact (hnvram.trans (.setFoundPid _ _ _)).trans (.setNFound _ _)
  · have hmid := hnvram.trans (switchMid_hands n σ₁)
    have hquota : (switchMid n σ₁).mod.nToFind = ((σ₁.mod.nFound + 1 : Nat) : Int) + n := by
      show ((σ₁.mod.nFound + 1 : Nat) : Int) + intMin _ _ = _
      rw [intMin_eq_min]
      omega
    have hdram := walkTier_over_hands (π := memPolicy P) (σ := switchMid n σ₁) hneg
      (.start rfl rfl) hquota (by
        rw [hmid.lastPid, hmid.nPids]
        exact hlast .dram)
    exact (hmid.trans hdram).trans (.pairUp _ _ _)

/-- **A FIND with a negative count moves no hand.** -/
theorem find_over_hands (h : Registered σ) {req : Req}
    (hop : OpCode.ofCode req.opCode = some .find) (hneg : req.pidN.toInt < 0) :
    SameHands σ.refreshed.mod (processReq P (some req) σ).sys.mod := by
  refine SameHands.trans ?_ (processReq_hands (some req) σ)
  rw [processReq_find hop]
  have hmin : ∀ cap : Nat, intMin cap req.pidN.toInt < 0 := by
    intro cap
    rw [intMin_eq_min]
    omega
  by_cases hpos : 0 < σ.refreshed.mod.nPids
  · have hlast := h.refreshed.lastPid_lt hpos
    have hfound := Sys.refreshed_nFound σ
    cases hmode : FindMode.ofCode req.mode with
    | none =>
      rw [processFind_default hmode]
      exact .refl _
    | some mode =>
      rcases memWalkPolicy_cases P mode with ⟨π, hπ⟩ | rfl | rfl
      · rw [processFind_plain hπ hmode hpos]
        have hstart : SameHands σ.refreshed.mod
            (σ.refreshed.mod.setQuota .backup (intMin maxNFind req.pidN.toInt)) := .setQuota _ _ _
        refine hstart.trans ?_
        rw [(memWalk_over hπ (hmin _) hfound).1]
        refine walkTier_over_hands (σ := { σ.refreshed with
          mod := σ.refreshed.mod.setQuota .backup (intMin maxNFind req.pidN.toInt) })
          (b := 0) (hmin maxNFind) (.start hfound ?_) (by simp [Mod.setQuota]) ?_
        · rw [(memWalkPolicy_ops hπ).2]
          rfl
        · rw [hstart.lastPid, hstart.nPids]
          exact hlast π.tier
      · rw [processFind_switch hmode hpos]
        exact switchWalk_over_hands (hmin _) hfound hlast
      · rw [processFind_clear hmode hpos]
        exact (clearTasks_hands _ fun i hi => List.mem_range.mp hi).2
  · rw [processFind_empty req hpos]
    exact .refl _

theorem processReq_owned (h : Registered σ) (hown : ∀ tier, σ.HandOwned tier) {req : Option Req}
    (hsafe : ReqSafe P req σ) (tier : Tier) : (processReq P req σ).sys.HandOwned tier := by
  have hbegun : ∀ tier, σ.begun.HandOwned tier := fun tier => (hown tier).same rfl (.begun σ)
  have hrefreshed : ∀ tier, σ.refreshed.HandOwned tier := fun tier => h.refreshed_owned (hown tier)
  have hbody : (processBody P req σ).1.HandOwned tier := by
    cases req with
    | none => exact hbegun tier
    | some req =>
      simp only [processBody]
      split
      · exact hbegun tier
      · rename_i hop
        exact processFind_owned h.refreshed (Sys.refreshed_nFound σ) hrefreshed hop
          (hsafe req rfl hop) tier
      · exact bindPid_owned h.refreshed hrefreshed req.pidN_le tier
      · have hreg := unbindPid_registered h.begun req.pidN.toInt req.pidN_le
        obtain ⟨hf, ha⟩ := refreshPids_follows σ.kernel hreg.anchored
        exact (unbindPid_owned h.begun hbegun req.pidN_le tier).follows hreg.anchored hf ha
          (refreshPids_work _ _).owner
  refine hbody.same ?_ (processReq_hands req σ)
  unfold processReq
  simp only
  split <;> rfl

/-! ## Runs -/

/-- The runs whose walks are all safe. -/
def keeping (P : Platform) : TSys Sys where
  init := Loaded
  step σ σ' := EnvStep σ σ' ∨ ∃ req, ReqSafe P req σ ∧ (processReq P req σ).sys = σ'

theorem keeping_reachable {σ : Sys} (h : (keeping P).Reachable σ) : (hyb P).Reachable σ :=
  h.mono (fun _ hi => hi) fun _ _ hs => hs.imp_right fun ⟨req, _, heq⟩ => ⟨req, heq⟩

/-- **In a run of safe walks both hands are always in order.** -/
theorem keeping_owned (P : Platform) :
    (keeping P).Invariant fun σ => ∀ tier, σ.HandOwned tier := by
  have hreg : (keeping P).Invariant Registered := fun σ hσ =>
    registered_invariant P σ (keeping_reachable hσ)
  refine hreg.strengthen ?_ ?_
  · rintro σ ⟨found, backup, switchBackup, tasks, owner, hmod⟩ tier
    refine Or.inl ?_
    rw [hmod]
    cases tier <;> rfl
  · rintro σ σ' h hown (⟨hmod, hpid⟩ | ⟨req, hsafe, rfl⟩) tier
    · rcases h.hand tier with hlt | ⟨_, _, hzero⟩
      · have htask : σ.mod.taskItems (σ.mod.lastPid tier) ∈ σ.mod.tasks :=
          Mod.mem_tasks.mpr ⟨_, hlt, rfl⟩
        rw [Sys.HandOwned, hmod, hpid _ htask]
        exact hown tier
      · exact Or.inl (hmod ▸ hzero)
    · exact processReq_owned h hown hsafe tier

end

end Ambix.Hyb
