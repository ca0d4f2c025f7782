import Ambix.Logic.Find

/-!
# The counters and the array indices of a request

`Event.Within` is what an event may show: the counters a callback finds and the
index of every write. Three facts about a walk carry the module:

* `walkTier_ranged`: with a quota in range, every event is within, and only the
  counter the walk fills needs room for it;
* `Wrote`: the loops of `mem_walk` and `switch_walk` write below a given slot;
* `walkTier_bounded`: with any quota, the counters are in range unless an event
  was outside.
-/

namespace Ambix.Hyb

open Ambix.Lib Ambix.Lib.QuotaScan

/-- The number of entries `kmalloc` makes room for in each array. -/
def Buf.capacity : Buf → Nat
  | .found => maxNFind
  | .spare .backup => maxNFind
  | .spare .switchBackup => maxNSwitch

def Counters.nSpare (c : Counters) : Spare → Nat
  | .backup => c.nBackup
  | .switchBackup => c.nSwitchBackup

/-- A callback finds its counters in range, the backup counters up to `room`, and
every write has an index inside its array. -/
def Event.Within (room : Spare → Nat) : Event → Prop
  | .visit _ _ _ c =>
    (c.nFound : Int) ≤ c.nToFind ∧ c.nToFind ≤ maxNFind ∧ ∀ s, c.nSpare s ≤ room s
  | .store buf i => i < buf.capacity
  | .commit .. | .retval _ => True

/-- An event of a walk that counts nothing: the callback finds the counters as the
request before left them, and nothing is written. -/
def Event.Idle (m : Mod) : Event → Prop
  | .visit _ _ _ c => c = { m.counters with nFound := 0 }
  | .store _ _ => False
  | .commit .. | .retval _ => True

/-- The write, if it is one, is inside its array. -/
def Event.Stored : Event → Prop
  | .store buf i => i < buf.capacity
  | .visit .. | .commit .. | .retval _ => True

/-- The room for the backup counters in a walk that fills `own`: the capacity of that
array, and for the other counter what it already shows. -/
def Mod.room (m : Mod) (own s : Spare) : Nat :=
  if s = own then (Buf.spare s).capacity else m.nSpare s

/-- The room when both counters are the request's own. -/
def spareRoom (s : Spare) : Nat := (Buf.spare s).capacity

/-- What `m` did since `base` is within. -/
def Mod.Logged (m : Mod) (room : Spare → Nat) (base : List Event) : Prop :=
  ∃ evs, m.trace = evs ++ base ∧ ∀ ev ∈ evs, ev.Within room

theorem Event.Within.stored {room : Spare → Nat} {ev : Event} (h : ev.Within room) :
    ev.Stored := by
  cases ev <;> trivial

theorem Mod.Logged.cons {room : Spare → Nat} {base : List Event} {m m' : Mod} {e : Event}
    (h : m.Logged room base) (hev : e.Within room) (htrace : m'.trace = e :: m.trace) :
    m'.Logged room base := by
  obtain ⟨evs, heq, hevs⟩ := h
  refine ⟨e :: evs, by rw [htrace, heq, List.cons_append], fun e' hev' => ?_⟩
  rcases List.mem_cons.mp hev' with rfl | hev'
  · exact hev
  · exact hevs e' hev'

/-- Nothing was done before. -/
theorem Mod.Logged.all {room : Spare → Nat} {m : Mod} (h : m.Logged room []) :
    ∀ ev ∈ m.trace, ev.Within room := by
  obtain ⟨evs, heq, hevs⟩ := h
  intro ev hev
  rw [heq, List.append_nil] at hev
  exact hevs ev hev

theorem Mod.Logged.refl {room : Spare → Nat} (m : Mod) : m.Logged room m.trace :=
  ⟨[], rfl, by simp⟩

theorem Mod.nSpare_pushSpare_ne {s s' : Spare} (h : s' ≠ s) (x : AddrInfo) (m : Mod) :
    (m.pushSpare s x).nSpare s' = m.nSpare s' := by
  cases s <;> cases s' <;> first | rfl | exact absurd rfl h

theorem Buf.capacity_le (b : Buf) : b.capacity ≤ maxNFind := by
  cases b with
  | found => exact Nat.le_refl _
  | spare s =>
    cases s
    · exact Nat.le_refl _
    · show maxNSwitch ≤ maxNFind
      rw [maxNSwitch_eq, maxNFind_eq]
      omega

/-! ## A walk with a quota in range -/

/-- The counters of a walk with quota `N`, and what it did since `base`. -/
structure Ranged (N : Int) (room : Spare → Nat) (base : List Event) (m : Mod) : Prop where
  quota : m.nToFind = N
  nFound : (m.nFound : Int) ≤ N
  nSpare : ∀ s, m.nSpare s ≤ room s
  trace : m.Logged room base

section

variable {P : Platform} {π : Policy P} {N : Int} {room : Spare → Nat} {base : List Event}
variable {m : Mod}

theorem Ranged.cons {e : Event} {m' : Mod} (h : Ranged N room base m) (hev : e.Within room)
    (hquota : m'.nToFind = m.nToFind) (hfound : (m'.nFound : Int) ≤ N)
    (hspare : ∀ s, m'.nSpare s ≤ room s) (htrace : m'.trace = e :: m.trace) :
    Ranged N room base m' :=
  ⟨hquota.trans h.quota, hfound, hspare, h.trace.cons hev htrace⟩

theorem Ranged.log {ev : Event} (h : Ranged N room base m) (hev : ev.Within room) :
    Ranged N room base (m.log ev) :=
  h.cons hev rfl h.nFound (fun s => by simpa using h.nSpare s) rfl

/-- The event of a call. -/
theorem Ranged.visit (h : Ranged N room base m) (hN : N ≤ maxNFind) (t : TaskPtr) (e : PageEntry) :
    (Event.visit t e.addr e.pte m.counters).Within room := by
  refine ⟨?_, ?_, fun s => ?_⟩
  · show (m.nFound : Int) ≤ m.nToFind
    rw [h.quota]
    exact h.nFound
  · show m.nToFind ≤ maxNFind
    rw [h.quota]
    exact hN
  · have := h.nSpare s
    cases s <;> exact this

/-- A call with an open quota. Only the policy's own counter needs room. -/
theorem Ranged.note (h : Ranged N room base m) (hN : N ≤ (Buf.spare π.spare).capacity)
    (hroom : (Buf.spare π.spare).capacity ≤ room π.spare)
    (hopen : (m.nFound : Int) ≠ m.nToFind) (addr : Nat) (p : Pte) :
    Ranged N room base (π.note addr p m) := by
  have hfound := h.nFound
  rw [h.quota] at hopen
  have hcap := Buf.capacity_le (.spare π.spare)
  unfold Policy.note
  split
  · refine h.cons (e := .store .found m.nFound) ?_ rfl ?_ (fun s => ?_) rfl
    · show m.nFound < maxNFind
      omega
    · show ((m.nFound + 1 : Nat) : Int) ≤ N
      omega
    · simpa using h.nSpare s
  · split
    · rename_i hspare
      -- the backup list has room left below the quota
      have hlt : (m.nSpare π.spare : Int) < N - m.nFound := by
        unfold Mod.spareOpen Mod.quotaLeft at hspare
        have hmax := maxNFind_eq
        rwa [h.quota, wrapInt_of_mem (by omega) (by omega)] at hspare
      refine h.cons (e := .store (.spare π.spare) (m.nSpare π.spare)) ?_ ?_ ?_ (fun s => ?_) ?_
      · show m.nSpare π.spare < (Buf.spare π.spare).capacity
        omega
      · exact (Fixed.pushSpare m π.spare _).nToFind
      · cases π.spare <;> exact h.nFound
      · have hs := h.nSpare s
        by_cases heq : s = π.spare
        · subst heq
          rw [Mod.nSpare_pushSpare]
          omega
        · rwa [Mod.nSpare_pushSpare_ne heq]
      · cases π.spare <;> rfl
    · exact h
  · exact h

theorem ranged_rule (k : Kernel) (m₀ : Mod) (hN : N ≤ (Buf.spare π.spare).capacity)
    (hroom : (Buf.spare π.spare).capacity ≤ room π.spare) :
    WalkRule k m₀ π.callback (Ranged N room base) fun _ _ => True where
  quiet := π.quiet
  pid m p h := ⟨h.quota, h.nFound, fun s => by simpa using h.nSpare s, h.trace⟩
  call := by
    intro i _ e m _ _ _ h
    have hlog := h.log (h.visit (Int.le_trans hN (by
      have := Buf.capacity_le (.spare π.spare)
      omega)) (m₀.taskItems i) e)
    have hcb : Ranged N room base (π.callback (some e.pte) e.addr
        (m.log (.visit (m₀.taskItems i) e.addr e.pte m.counters))).mod := by
      unfold Policy.callback
      split
      · have hspare := fun s => (Mod.nSpare_setLastAddr s _ π.tier e.addr).trans_le (hlog.nSpare s)
        unfold CbResult.full
        revert hspare
        cases π.tier <;> exact fun hspare => ⟨hlog.quota, hlog.nFound, hspare, hlog.trace⟩
      · exact hlog.note hN hroom ‹_› e.addr e.pte
    refine ⟨?_, trivial⟩
    unfold invoke
    simp only
    split
    · exact hcb
    · exact hcb.log trivial

/-- **A walk with a quota in range stays in range.** -/
theorem walkTier_ranged {σ : Sys} (h : Ranged N room base σ.mod)
    (hN : N ≤ (Buf.spare π.spare).capacity)
    (hroom : (Buf.spare π.spare).capacity ≤ room π.spare)
    (hlast : σ.mod.lastPid π.tier < σ.mod.nPids) :
    Ranged N room base (walkTier π.callback π.tier σ).mod := by
  refine walkTier_holds (ranged_rule σ.kernel σ.mod hN hroom) hlast (fun m i h => ?_) h
  cases π.tier <;>
  exact ⟨h.quota, h.nFound, fun s => by have := h.nSpare s; cases s <;> exact this, h.trace⟩

end

/-! ## The loops over `found_addrs` -/

/-- `m'` comes from `m` by writes to `found_addrs` below slot `lim`. -/
structure Wrote (lim : Nat) (m m' : Mod) : Prop where
  nToFind : m'.nToFind = m.nToFind
  nSpare : ∀ s, m'.nSpare s = m.nSpare s
  trace : ∃ evs, m'.trace = evs ++ m.trace ∧ ∀ ev ∈ evs, ∃ i < lim, ev = .store .found i

namespace Wrote

variable {lim : Nat} {m m' m'' : Mod}

theorem refl (lim : Nat) (m : Mod) : Wrote lim m m := ⟨rfl, fun _ => rfl, [], rfl, by simp⟩

theorem trans (h : Wrote lim m m') (h' : Wrote lim m' m'') : Wrote lim m m'' := by
  obtain ⟨evs, htrace, hevs⟩ := h.trace
  obtain ⟨evs', htrace', hevs'⟩ := h'.trace
  refine ⟨h'.nToFind.trans h.nToFind, fun s => (h'.nSpare s).trans (h.nSpare s), evs' ++ evs,
    by rw [htrace', htrace, List.append_assoc], fun ev hev => ?_⟩
  rcases List.mem_append.mp hev with hev | hev
  · exact hevs' ev hev
  · exact hevs ev hev

/-- One write. -/
theorem one {i : Nat} (hi : i < lim) (hquota : m'.nToFind = m.nToFind)
    (hspare : ∀ s, m'.nSpare s = m.nSpare s) (htrace : m'.trace = .store .found i :: m.trace) :
    Wrote lim m m' :=
  ⟨hquota, hspare, [.store .found i], htrace, fun ev hev => ⟨i, hi, by simpa using hev⟩⟩

theorem foldl {g : Mod → Nat → Mod} {is : List Nat} (h : ∀ i ∈ is, ∀ m, Wrote lim m (g m i))
    (m : Mod) : Wrote lim m (is.foldl g m) := by
  induction is generalizing m with
  | nil => exact refl lim m
  | cons i is ih =>
    exact (h i List.mem_cons_self m).trans
      (ih (fun j hj => h j (List.mem_cons_of_mem _ hj)) _)

theorem setNFound (lim n : Nat) (m : Mod) : Wrote lim m (m.setNFound n) :=
  ⟨rfl, fun s => by cases s <;> rfl, [], rfl, by simp⟩

theorem setFoundPid {i : Nat} (hi : i < lim) (p : Int) (m : Mod) :
    Wrote lim m (m.setFoundPid i p) :=
  one hi rfl (fun s => by cases s <;> rfl) rfl

theorem moveFound {dst : Nat} (hdst : dst < lim) (src : Nat) (m : Mod) :
    Wrote lim m (m.moveFound dst src) :=
  one hdst rfl (fun s => by cases s <;> rfl) rfl

theorem appendFound {s : Spare} {c : Nat} (h : m.nFound + c ≤ lim) :
    Wrote lim m (m.appendFound s c) := by
  induction c with
  | zero => exact refl lim m
  | succ c ih =>
    rw [Mod.appendFound_succ]
    refine (ih (by omega)).trans (one (i := m.nFound + c) (by omega) rfl (fun s => ?_) ?_)
    · cases s <;> rfl
    · rw [← Mod.nFound_appendFound s c m]
      rfl

theorem shiftLeft {dst n : Nat} (h : dst + n ≤ lim) (src : Nat) (m : Mod) :
    Wrote lim m (m.shiftLeft src dst n) :=
  foldl (fun i hi m => moveFound (by have := List.mem_range.mp hi; omega) _ m) m

theorem shiftRight {dst n : Nat} (h : dst + n ≤ lim) (src : Nat) (m : Mod) :
    Wrote lim m (m.shiftRight src dst n) :=
  foldl (fun i hi m => moveFound
    (by have := List.mem_range.mp (List.mem_reverse.mp hi); omega) _ m) m

theorem fillNvram {lo n : Nat} (h : lo + n ≤ lim) (m : Mod) :
    Wrote lim m (m.fillNvram lo n) := by
  unfold Mod.fillNvram
  refine foldl (fun i hi m => ?_) m
  have hi := List.mem_range.mp hi
  exact one (i := lo + i) (by omega) rfl (fun s => by cases s <;> rfl) rfl

/-- **`pairUp` writes only inside the two sections and the separator.** The right
shift goes beyond `n_found`, but not beyond the room for two full sections. -/
theorem pairUp {v d : Nat} (hfound : m.nFound = v + 1 + d) (hv : 2 * v + 1 ≤ lim)
    (hd : 2 * d + 1 ≤ lim) : Wrote lim m (pairUp v d m) := by
  unfold Ambix.Hyb.pairUp
  split
  · exact refl lim m
  · split
    · simp only
      split
      · rename_i hfew
        have hnb : (((m.setFoundPid (d + m.nBackup) 0).shiftLeft (v + 1) (d + m.nBackup + 1)
            d).setNFound (d + m.nBackup + 1 + d)).nBackup = m.nBackup :=
          foldl_keeps (f := Mod.nBackup) (by intros; rfl) _ _
        refine ((setFoundPid (by omega) 0 m).trans (shiftLeft (by omega) (v + 1) _)).trans
          ((setNFound lim _ _).trans (appendFound ?_))
        rw [hnb, Mod.setNFound_nFound]
        omega
      · exact appendFound (by omega)
    · split
      · exact ((shiftRight (by omega) _ m).trans (fillNvram (by omega) _)).trans
          ((setFoundPid (by omega) 0 _).trans (setNFound lim _ _))
      · exact (setFoundPid (by omega) 0 m).trans (setNFound lim _ _)

theorem logged (h : Wrote lim m m') (hlim : lim ≤ maxNFind) {room : Spare → Nat}
    {base : List Event} (hm : m.Logged room base) : m'.Logged room base := by
  obtain ⟨evs, htrace, hevs⟩ := h.trace
  obtain ⟨evs₀, heq, hevs₀⟩ := hm
  refine ⟨evs ++ evs₀, by rw [htrace, heq, List.append_assoc], fun ev hev => ?_⟩
  rcases List.mem_append.mp hev with hev | hev
  · obtain ⟨i, hi, rfl⟩ := hevs ev hev
    exact Nat.lt_of_lt_of_le hi hlim
  · exact hevs₀ ev hev

end Wrote

/-! ## The walks of a request -/

/-- The counters a request leaves behind are in range; it starts by clearing `n_found`. -/
def Counted (m : Mod) : Prop :=
  m.nToFind ≤ maxNFind ∧ ∀ s, m.nSpare s ≤ (Buf.spare s).capacity

/-- What a walk leaves when its count is in range. -/
structure InRange (room : Spare → Nat) (base : List Event) (m : Mod) : Prop where
  quota : m.nToFind ≤ maxNFind
  nSpare : ∀ s, m.nSpare s ≤ room s
  trace : m.Logged room base

theorem Wrote.inRange {lim : Nat} {m m' : Mod} {N : Int} {room : Spare → Nat}
    {base : List Event} (h : Wrote lim m m') (hlim : lim ≤ maxNFind)
    (hm : Ranged N room base m) (hN : N ≤ maxNFind) : InRange room base m' :=
  ⟨by rw [h.nToFind, hm.quota]; exact hN, fun s => by rw [h.nSpare]; exact hm.nSpare s,
    h.logged hlim hm.trace⟩

section

variable {P : Platform} {σ : Sys}

/-- The state a walk with quota `n` starts from: its own counter is cleared. -/
theorem Ranged.setQuota (s : Spare) {n : Int} (hn : 0 ≤ n) (hfound : σ.mod.nFound = 0)
    (htrace : σ.mod.trace = []) : Ranged n (σ.mod.room s) [] (σ.mod.setQuota s n) := by
  have hquota : (σ.mod.setQuota s n).nToFind = n := by cases s <;> rfl
  have hzero : (σ.mod.setQuota s n).nFound = 0 := by cases s <;> exact hfound
  have hempty : (σ.mod.setQuota s n).trace = [] := by cases s <;> exact htrace
  refine ⟨hquota, by rw [hzero]; exact hn, fun s' => ?_, ?_⟩
  · unfold Mod.room
    split
    · rename_i hown
      subst hown
      cases s' <;> exact Nat.zero_le _
    · rename_i hother
      cases s <;> cases s' <;> first | exact Nat.le_refl _ | exact absurd rfl hother
  · rw [← hempty]
    exact .refl _

theorem Mod.room_own (m : Mod) (s : Spare) : m.room s s = (Buf.spare s).capacity := if_pos rfl

theorem Mod.room_le {m : Mod} (h : ∀ s, m.nSpare s ≤ spareRoom s) (own s : Spare) :
    m.room own s ≤ spareRoom s := by
  unfold Mod.room
  split
  · exact Nat.le_refl _
  · exact h s

theorem memWalk_inRange {mode : FindMode} {π : Policy P} (hmode : memWalkPolicy P mode = some π)
    {n : Int} (hn : 0 ≤ n) (hmax : n ≤ maxNFind) (hfound : σ.mod.nFound = 0)
    (htrace : σ.mod.trace = []) (hlast : ∀ tier, σ.mod.lastPid tier < σ.mod.nPids) :
    InRange (σ.mod.room .backup) [] (memWalk P n mode σ).1.mod := by
  obtain ⟨c, hc, hwalk⟩ := memWalk_walk hmode n σ
  have hspare := (memWalkPolicy_ops hmode).2
  have hwalked : Ranged n (σ.mod.room .backup) [] (walkTier π.callback π.tier
      { σ with mod := σ.mod.setQuota .backup n }).mod := by
    refine walkTier_ranged (.setQuota .backup hn hfound htrace) ?_ ?_ (hlast π.tier)
    · rw [hspare]
      exact hmax
    · rw [hspare, Mod.room_own]
  rw [hwalk]
  rcases Nat.eq_zero_or_pos c with rfl | hpos
  · exact (Wrote.refl 0 _).inRange (Nat.zero_le _) hwalked hmax
  · refine (Wrote.appendFound (Nat.le_refl _)).inRange ?_ hwalked hmax
    have := hc.2 hpos
    have := hwalked.quota
    omega

/-- A walk does not take candidates back. -/
theorem walkTier_grows (π : Policy P) (hlast : σ.mod.lastPid π.tier < σ.mod.nPids) :
    σ.mod.nFound ≤ (walkTier π.callback π.tier σ).mod.nFound := by
  refine walkTier_holds (I := fun m => σ.mod.nFound ≤ m.nFound)
    (callback_rule π _ _ (fun _ _ h => h) (fun _ _ _ h => h) ?_ ?_ ?_) hlast ?_ (Nat.le_refl _)
  · intro m a h
    cases π.tier <;> exact h
  · exact fun m x h => Nat.le_succ_of_le h
  · intro m x h
    cases π.spare <;> exact h
  · intro m i h
    cases π.tier <;> exact h

/-- What `pairUp` writes after the DRAM walk of a switch. -/
theorem dramWalk_wrote {n : Int} {σ₁ : Sys} (hlast : σ₁.mod.lastPid .dram < σ₁.mod.nPids) :
    let σ₂ := walkTier (memPolicy P).callback .dram (switchMid n σ₁)
    Wrote (2 * σ₂.mod.nFound + 1) σ₂.mod
      (pairUp σ₁.mod.nFound (σ₂.mod.nFound - σ₁.mod.nFound - 1) σ₂.mod) := by
  have hgrows : σ₁.mod.nFound + 1 ≤
      (walkTier (memPolicy P).callback .dram (switchMid n σ₁)).mod.nFound :=
    walkTier_grows (memPolicy P) (σ := switchMid n σ₁) hlast
  exact .pairUp (by omega) (by omega) (by omega)

/-- The NVRAM walk of a switch. -/
theorem nvramPhase_ranged {n : Int} (hn : 0 ≤ n) (hmax : n ≤ maxNSwitch)
    (hfound : σ.mod.nFound = 0) (htrace : σ.mod.trace = [])
    (hlast : ∀ tier, σ.mod.lastPid tier < σ.mod.nPids) :
    Ranged n (σ.mod.room .switchBackup) [] (σ.nvramPhase P n).mod := by
  rw [nvramPhase_eq]
  refine walkTier_ranged (π := nvramSwitchPolicy P)
    (σ := { σ with mod := σ.mod.setQuota .switchBackup n })
    (.setQuota .switchBackup hn hfound htrace) hmax ?_ (hlast .nvram)
  show (Buf.spare .switchBackup).capacity ≤ σ.mod.room .switchBackup .switchBackup
  rw [Mod.room_own]

/-- What `switch_walk` does after its NVRAM walk, and what it leaves if nothing was out
of range before it. -/
theorem switchWalk_inRange {n : Int} (hn : 0 ≤ n) (hmax : n ≤ maxNSwitch)
    (hfound : σ.mod.nFound = 0) (htrace : σ.mod.trace = [])
    (hlast : ∀ tier, σ.mod.lastPid tier < σ.mod.nPids) :
    (switchWalk P n σ).1.mod.Logged spareRoom (σ.nvramPhase P n).mod.trace ∧
      ((∀ s, σ.mod.nSpare s ≤ spareRoom s) → Counted (switchWalk P n σ).1.mod) := by
  have hmaxS := maxNSwitch_eq
  have hmaxF := maxNFind_eq
  have hwalked := nvramPhase_ranged (P := P) hn hmax hfound htrace hlast
  have hheld := walkTier_held (nvramSwitchPolicy P)
    (σ := { σ with mod := σ.mod.setQuota .switchBackup n }) hlast
  have htier : (nvramSwitchPolicy P).tier = .nvram := rfl
  rw [htier, ← nvramPhase_eq] at hheld
  rw [switchWalk_nvramPhase]
  generalize σ.nvramPhase P n = σ₁ at hwalked hheld
  have hv := hwalked.nFound
  have hsep : Wrote maxNFind σ₁.mod ((σ₁.mod.setFoundPid σ₁.mod.nFound 0).setNFound
      (σ₁.mod.nFound + 1)) :=
    (Wrote.setFoundPid (by omega) 0 _).trans (.setNFound _ _ _)
  simp only
  split
  · refine ⟨hsep.logged (Nat.le_refl _) (.refl _), fun hspare => ⟨?_, fun s => ?_⟩⟩
    · rw [hsep.nToFind, hwalked.quota]
      omega
    · rw [hsep.nSpare]
      exact Nat.le_trans (hwalked.nSpare s) (Mod.room_le hspare .switchBackup s)
  · -- the second walk starts after the separator, with a quota of its own
    have hmid : Ranged (((σ₁.mod.nFound + 1 : Nat) : Int) +
        intMin ((σ₁.mod.nFound : Int) + (σ₁.mod.nSwitchBackup : Int)) n) spareRoom
        σ₁.mod.trace (switchMid n σ₁).mod := by
      refine ⟨rfl, ?_, fun s => ?_, hsep.logged (Nat.le_refl _) (.refl _)⟩
      · show ((σ₁.mod.nFound + 1 : Nat) : Int) ≤ _
        rw [intMin_eq_min]
        omega
      · cases s
        · exact Nat.zero_le _
        · have hown := hwalked.nSpare .switchBackup
          rwa [Mod.room_own] at hown
    have hlast₁ : (switchMid n σ₁).mod.lastPid (memPolicy P).tier < (switchMid n σ₁).mod.nPids :=
      hheld.hand .dram
    have hwalked₂ := walkTier_ranged (π := memPolicy P) hmid
      (show _ ≤ (maxNFind : Int) by rw [intMin_eq_min]; omega) (Nat.le_refl _) hlast₁
    have hgrows := walkTier_grows (memPolicy P) hlast₁
    have hmidfound : (switchMid n σ₁).mod.nFound = σ₁.mod.nFound + 1 := rfl
    have htier₂ : (memPolicy P).tier = .dram := rfl
    rw [htier₂] at hwalked₂ hgrows
    generalize walkTier (memPolicy P).callback .dram (switchMid n σ₁) = σ₂ at hwalked₂ hgrows
    have hd := hwalked₂.nFound
    rw [intMin_eq_min] at hd
    have hpair : Wrote maxNFind σ₂.mod
        (pairUp σ₁.mod.nFound (σ₂.mod.nFound - σ₁.mod.nFound - 1) σ₂.mod) :=
      .pairUp (by omega) (by omega) (by omega)
    have hleft := hpair.inRange (Nat.le_refl _) hwalked₂ (by rw [intMin_eq_min]; omega)
    exact ⟨hleft.trace, fun _ => ⟨hleft.quota, hleft.nSpare⟩⟩

end

/-! ## Any quota -/

/-- The counters are in range, unless a write was outside its array. -/
def Bounded (m : Mod) : Prop :=
  (∀ ev ∈ m.trace, ev.Stored) →
    m.nToFind ≤ maxNFind ∧ m.nFound ≤ maxNFind ∧ ∀ s, m.nSpare s ≤ (Buf.spare s).capacity

/-- The counters left are in range, unless a write was outside its array. -/
def Settled (m : Mod) : Prop := (∀ ev ∈ m.trace, ev.Stored) → Counted m

section

variable {P : Platform} {π : Policy P} {m : Mod}

theorem Bounded.settled (h : Bounded m) : Settled m := fun hm => ⟨(h hm).1, (h hm).2.2⟩

theorem Bounded.same {m' : Mod} (h : Bounded m) (htrace : m'.trace = m.trace)
    (hquota : m'.nToFind = m.nToFind) (hfound : m'.nFound = m.nFound)
    (hspare : ∀ s, m'.nSpare s = m.nSpare s) : Bounded m' := by
  intro hm
  rw [htrace] at hm
  obtain ⟨h1, h2, h3⟩ := h hm
  exact ⟨hquota ▸ h1, hfound ▸ h2, fun s => (hspare s).symm ▸ h3 s⟩

theorem Bounded.log (h : Bounded m) (ev : Event) : Bounded (m.log ev) := by
  intro hm
  obtain ⟨h1, h2, h3⟩ := h fun ev' hev' => hm ev' (List.mem_cons_of_mem _ hev')
  exact ⟨h1, h2, fun s => by simpa using h3 s⟩

/-- A write at the end of `found_addrs` that leaves the counters in range. -/
theorem Bounded.pushFound (h : Bounded m) (x : AddrInfo) : Bounded (m.pushFound x) := by
  intro hm
  have hlt : m.nFound < maxNFind := hm (.store .found m.nFound) List.mem_cons_self
  obtain ⟨h1, _, h3⟩ := h fun ev hev => hm ev (List.mem_cons_of_mem _ hev)
  exact ⟨h1, hlt, fun s => by simpa using h3 s⟩

theorem Bounded.pushSpare (h : Bounded m) (s : Spare) (x : AddrInfo) :
    Bounded (m.pushSpare s x) := by
  have htrace : (m.pushSpare s x).trace = .store (.spare s) (m.nSpare s) :: m.trace := by
    cases s <;> rfl
  intro hm
  rw [htrace] at hm
  have hlt : m.nSpare s < (Buf.spare s).capacity :=
    hm (.store (.spare s) (m.nSpare s)) List.mem_cons_self
  obtain ⟨h1, h2, h3⟩ := h fun ev hev => hm ev (List.mem_cons_of_mem _ hev)
  have hfix := Fixed.pushSpare m s x
  refine ⟨hfix.nToFind ▸ h1, by cases s <;> exact h2, fun s' => ?_⟩
  by_cases heq : s' = s
  · subst heq
    rw [Mod.nSpare_pushSpare]
    exact hlt
  · rw [Mod.nSpare_pushSpare_ne heq]
    exact h3 s'

/-- **A walk with any quota.** -/
theorem walkTier_bounded {σ : Sys} (h : Bounded σ.mod)
    (hlast : σ.mod.lastPid π.tier < σ.mod.nPids) :
    Bounded (walkTier π.callback π.tier σ).mod := by
  refine walkTier_holds (callback_rule π _ _ (fun m p h => ?_) (fun _ _ _ h => h.log _)
    (fun m a h => ?_) (fun _ _ h => h.pushFound _) (fun _ _ h => h.pushSpare _ _)) hlast
    (fun m i h => ?_) h
  · exact h.same rfl rfl rfl fun s => by simp
  · refine h.same ?_ ?_ ?_ fun s => by simp
    all_goals cases π.tier <;> rfl
  · refine h.same ?_ ?_ ?_ fun s => ?_
    all_goals cases π.tier <;> rfl

theorem Wrote.settled {lim : Nat} {m' : Mod} (h : Wrote lim m m') (hm : Bounded m) :
    Settled m' := by
  obtain ⟨evs, htrace, _⟩ := h.trace
  intro hs
  obtain ⟨h1, _, h3⟩ := hm fun ev hev => hs ev (by rw [htrace]; exact List.mem_append_right _ hev)
  exact ⟨h.nToFind ▸ h1, fun s => (h.nSpare s).symm ▸ h3 s⟩

theorem Bounded.setQuota (s : Spare) {n : Int} (hn : n ≤ maxNFind) (hfound : m.nFound = 0)
    (hspare : ∀ s, m.nSpare s ≤ (Buf.spare s).capacity) : Bounded (m.setQuota s n) := by
  refine fun _ => ⟨by cases s <;> exact hn, ?_, fun s' => ?_⟩
  · cases s <;> exact hfound.trans_le (Nat.zero_le _)
  · cases s <;> cases s'
    · exact Nat.zero_le _
    · exact hspare .switchBackup
    · exact hspare .backup
    · exact Nat.zero_le _

end

section

variable {P : Platform} {σ : Sys}

theorem memWalk_settled {mode : FindMode} {π : Policy P} (hmode : memWalkPolicy P mode = some π)
    {n : Int} (hmax : n ≤ maxNFind) (hfound : σ.mod.nFound = 0)
    (hspare : ∀ s, σ.mod.nSpare s ≤ (Buf.spare s).capacity)
    (hlast : ∀ tier, σ.mod.lastPid tier < σ.mod.nPids) : Settled (memWalk P n mode σ).1.mod := by
  obtain ⟨c, _, hwalk⟩ := memWalk_walk hmode n σ
  have hwalked : Bounded (walkTier π.callback π.tier
      { σ with mod := σ.mod.setQuota .backup n }).mod :=
    walkTier_bounded (.setQuota .backup hmax hfound hspare) (hlast π.tier)
  rw [hwalk]
  exact (Wrote.appendFound (Nat.le_refl _)).settled hwalked

/-- With a negative count the second quota is at most `n_found`. -/
theorem switchWalk_settled {n : Int} (hneg : n < 0) (hfound : σ.mod.nFound = 0)
    (hspare : ∀ s, σ.mod.nSpare s ≤ (Buf.spare s).capacity)
    (hlast : ∀ tier, σ.mod.lastPid tier < σ.mod.nPids) : Settled (switchWalk P n σ).1.mod := by
  have hwalked : Bounded (walkTier (nvramSwitchPolicy P).callback .nvram
      { σ with mod := σ.mod.setQuota .switchBackup n }).mod :=
    walkTier_bounded (π := nvramSwitchPolicy P)
      (σ := { σ with mod := σ.mod.setQuota .switchBackup n })
      (.setQuota .switchBackup (by omega) hfound hspare) (hlast .nvram)
  have hheld := walkTier_held (nvramSwitchPolicy P)
    (σ := { σ with mod := σ.mod.setQuota .switchBackup n }) hlast
  have htier : (nvramSwitchPolicy P).tier = .nvram := rfl
  rw [htier] at hheld
  rw [switchWalk_phases]
  generalize walkTier (nvramSwitchPolicy P).callback .nvram
    { σ with mod := σ.mod.setQuota .switchBackup n } = σ₁ at hwalked hheld
  simp only
  split
  · exact ((Wrote.setFoundPid (Nat.lt_succ_self _) 0 _).trans (.setNFound _ _ _)).settled hwalked
  · have hmid : Bounded (switchMid n σ₁).mod := by
      intro hm
      -- the separator was stored inside `found_addrs`
      have hlt : σ₁.mod.nFound < maxNFind :=
        hm (.store .found σ₁.mod.nFound) List.mem_cons_self
      obtain ⟨_, _, h3⟩ := hwalked fun ev hev => hm ev (List.mem_cons_of_mem _ hev)
      refine ⟨?_, hlt, fun s => ?_⟩
      · show ((σ₁.mod.nFound + 1 : Nat) : Int) + _ ≤ _
        rw [intMin_eq_min]
        omega
      · cases s
        · exact Nat.zero_le _
        · exact h3 .switchBackup
    have hlast₁ : (switchMid n σ₁).mod.lastPid (memPolicy P).tier < (switchMid n σ₁).mod.nPids :=
      hheld.hand .dram
    have hwalked₂ := walkTier_bounded (π := memPolicy P) hmid hlast₁
    have hwrote := dramWalk_wrote (P := P) (n := n) (hheld.hand .dram)
    have htier₂ : (memPolicy P).tier = .dram := rfl
    rw [htier₂] at hwalked₂
    generalize walkTier (memPolicy P).callback .dram (switchMid n σ₁) = σ₂ at hwalked₂ hwrote
    exact hwrote.settled hwalked₂

/-! ## `clear_walk` -/

/-- The clear callback writes nothing and counts nothing. -/
theorem clearWalk_idle (hfound : σ.mod.nFound = 0) (htrace : σ.mod.trace = []) :
    (clearWalk P σ).1.mod.counters = σ.mod.counters ∧
      ∀ ev ∈ (clearWalk P σ).1.mod.trace, ev.Idle σ.mod := by
  have hzero : σ.mod.counters = { σ.mod.counters with nFound := 0 } := by
    simp [Mod.counters, hfound]
  refine (clearWalk_holds (I := fun m => m.counters = σ.mod.counters ∧ ∀ ev ∈ m.trace,
    ev.Idle σ.mod) (E := fun _ _ => True) ⟨clear_quiet P, fun m p h => h, ?_⟩
    ⟨rfl, .refl _, ⟨rfl, by simp [htrace]⟩, fun _ _ _ _ _ => trivial⟩).inv
  rintro i _ e m _ _ _ ⟨hcount, hidle⟩
  refine ⟨?_, trivial⟩
  have hvisit : ∀ ev ∈ (m.log (.visit (σ.mod.taskItems i) e.addr e.pte m.counters)).trace,
      ev.Idle σ.mod := by
    intro ev hev
    rcases List.mem_cons.mp hev with rfl | hev
    · exact hcount.trans hzero
    · exact hidle ev hev
  unfold invoke
  simp only
  split
  · rw [pteCallbackNvramClear_mod]
    exact ⟨hcount, hvisit⟩
  · simp only [pteCallbackNvramClear_mod]
    refine ⟨hcount, fun ev hev => ?_⟩
    rcases List.mem_cons.mp hev with rfl | hev
    · trivial
    · exact hvisit ev hev

/-! ## What a request adds to its walks -/

/-- The return-code entry is all a request adds to what its body does. -/
theorem processReq_trace (req : Option Req) (σ : Sys) :
    ∃ evs, (processReq P req σ).sys.mod.trace = evs ++ (processBody P req σ).1.mod.trace ∧
      ∀ ev ∈ evs, ∃ i, ev = .retval i := by
  unfold processReq
  simp only
  split
  · exact ⟨[.retval _], rfl, fun ev hev => ⟨_, List.mem_singleton.mp hev⟩⟩
  · exact ⟨[], rfl, by simp⟩

theorem processReq_mem {req : Option Req} {ev : Event}
    (hev : ev ∈ (processReq P req σ).sys.mod.trace) :
    (∃ i, ev = .retval i) ∨ ev ∈ (processBody P req σ).1.mod.trace := by
  obtain ⟨evs, htrace, hevs⟩ := processReq_trace (P := P) req σ
  rw [htrace, List.mem_append] at hev
  exact hev.imp_left (hevs ev)

theorem processReq_mm (req : Option Req) (σ : Sys) :
    (processReq P req σ).sys.mm = (processBody P req σ).1.mm := by
  unfold processReq
  simp only
  split <;> rfl

theorem bindPid_work (k : Kernel) (pid : Int) (m : Mod) : SameWork m (bindPid k pid m).1 := by
  have hfind : SameWork m (findTargetProcess k pid m).1 := by
    unfold findTargetProcess
    split
    · exact .refl m
    · split
      · exact .refl m
      · simp only
        split
        · exact .refl m
        · split <;> constructor <;> rfl
  unfold bindPid
  split
  · exact .refl m
  · simp only
    split <;> exact hfind

theorem unbindPid_work (k : Kernel) (pid : Int) (m : Mod) : SameWork m (unbindPid k pid m).1 := by
  unfold unbindPid
  split
  · exact .refl m
  · split
    · exact .refl m
    · exact updatePidList_work _ m

end

end Ambix.Hyb
