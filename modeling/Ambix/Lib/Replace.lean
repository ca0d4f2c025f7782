import Mathlib.Data.List.Basic
import Mathlib.Logic.Function.Basic

/-!
# A file that is replaced

A writer creates a file under one name, writes a record into it in as many pieces as it likes
and gives it the name that readers open. It may lose a part of a record, and it may stop
between any two calls and start over. A file that has once been given the second name is
settled: it has a beginning of one record, and nothing changes it any more.
-/

namespace Ambix.Lib

/-- A file: its data, and when it was last changed. -/
structure Inode (α : Type*) where
  data : List α
  mtime : Nat

/-- The files, and the two names. -/
structure Disk (α : Type*) where
  inodes : Nat → Inode α
  /-- Those below it are in use. -/
  used : Nat
  published : Option Nat
  temporary : Option Nat

namespace Disk

variable {α : Type*} (d : Disk α)

def empty : Disk α := ⟨fun _ => ⟨[], 0⟩, 0, none, none⟩

/-- The file that `create` opens. -/
def target : Nat := d.temporary.getD d.used

/-- `fopen` of the temporary name for writing: a new file, or the one that has the name,
without its data. -/
def create (now : Nat) : Disk α where
  inodes := Function.update d.inodes d.target ⟨[], now⟩
  used := if d.temporary.isSome then d.used else d.used + 1
  published := d.published
  temporary := some d.target

/-- `write` of a piece to a file. -/
def append (i : Nat) (piece : List α) (now : Nat) : Disk α :=
  { d with inodes := Function.update d.inodes i ⟨(d.inodes i).data ++ piece, now⟩ }

/-- `rename` of the temporary name. -/
def rename : Disk α :=
  match d.temporary with
  | some i => { d with published := some i, temporary := none }
  | none => d

end Disk

/-- Where the writer is: between two records, or in one that goes into a file, with what it
has not written of it. -/
inductive Writer (α : Type*)
  | idle
  | writing (i : Nat) (rest : List α)

/-- The files with their writer. -/
structure Replacing (α : Type*) where
  disk : Disk α
  writer : Writer α
  /-- How many records it has begun. -/
  begun : Nat
  /-- Ghost: the record that a file was created for. -/
  holds : Nat → Nat

namespace Replacing

variable {α : Type*} (s : Replacing α)

def start : Replacing α := ⟨.empty, .idle, 0, fun _ => 0⟩

/-- A call of the writer, at any time `now`. -/
inductive Step (record : Nat → List α) : Replacing α → Prop
  | create (now : Nat) (hat : s.writer = .idle) :
      Step record ⟨s.disk.create now, .writing s.disk.target (record s.begun), s.begun + 1,
        Function.update s.holds s.disk.target s.begun⟩
  | write (i : Nat) (piece rest : List α) (now : Nat) (hat : s.writer = .writing i (piece ++ rest)) :
      Step record { s with disk := s.disk.append i piece now, writer := .writing i rest }
  /-- What is left then was lost, and nobody has noticed. -/
  | rename (i : Nat) (rest : List α) (hat : s.writer = .writing i rest) :
      Step record { s with disk := s.disk.rename, writer := .idle }
  /-- The program ends in the middle, or `rename` fails. -/
  | stop (i : Nat) (rest : List α) (hat : s.writer = .writing i rest) :
      Step record { s with writer := .idle }

/-- A file that the writer has no name for. -/
structure Settled (i : Nat) : Prop where
  used : i < s.disk.used
  name : s.disk.temporary ≠ some i

/-- What the writer is doing. -/
structure Writing (record : Nat → List α) (i : Nat) (rest : List α) : Prop where
  name : s.disk.temporary = some i
  data : (s.disk.inodes i).data ++ rest = record (s.holds i)
  last : s.holds i + 1 = s.begun
  older : ∀ j, j < s.disk.used → j ≠ i → s.holds j < s.holds i

/-- What holds of the files at any time. -/
structure Ok (record : Nat → List α) : Prop where
  temporary : ∀ i, s.disk.temporary = some i → i < s.disk.used
  published : ∀ i, s.disk.published = some i → s.Settled i
  begun : ∀ i, i < s.disk.used → s.holds i < s.begun
  data : ∀ i, i < s.disk.used → (s.disk.inodes i).data <+: record (s.holds i)
  writing : ∀ i rest, s.writer = .writing i rest → s.Writing record i rest
  latest : ∀ i j, s.disk.published = some j → s.Settled i → i ≠ j → s.holds i < s.holds j

variable {s} {record : Nat → List α} {s' : Replacing α}

theorem start_ok (record : Nat → List α) : Ok (α := α) start record where
  temporary i h := by simp [start, Disk.empty] at h
  published i h := by simp [start, Disk.empty] at h
  begun i h := absurd h (Nat.not_lt_zero i)
  data i h := absurd h (Nat.not_lt_zero i)
  writing i rest h := by simp [start] at h
  latest i j h := by simp [start, Disk.empty] at h

/-- `create` opens a file that is not settled. -/
theorem Settled.ne_target {i : Nat} (h : s.Settled i) : i ≠ s.disk.target := by
  rintro rfl
  cases htmp : s.disk.temporary with
  | none =>
    have := h.used
    simp [Disk.target, htmp] at this
  | some j =>
    refine h.name ?_
    simp [Disk.target, htmp]

/-- **A settled file stays as it is.** -/
theorem Step.settled (h : s.Ok record) (hstep : s.Step record s') {i : Nat} (hi : s.Settled i) :
    s'.Settled i ∧ s'.disk.inodes i = s.disk.inodes i ∧ s'.holds i = s.holds i := by
  cases hstep with
  | create now hat =>
    have hne := hi.ne_target
    refine ⟨⟨?_, ?_⟩, Function.update_of_ne hne _ _, Function.update_of_ne hne _ _⟩
    · show i < if s.disk.temporary.isSome then s.disk.used else s.disk.used + 1
      have := hi.used
      split <;> omega
    · exact fun heq => hne (Option.some.inj heq).symm
  | write j piece rest now hat =>
    have hne : i ≠ j := fun heq => hi.name (heq ▸ (h.writing _ _ hat).name)
    exact ⟨⟨hi.used, hi.name⟩, Function.update_of_ne hne _ _, rfl⟩
  | rename j rest hat =>
    have hname := (h.writing _ _ hat).name
    simp only [Disk.rename, hname]
    exact ⟨⟨hi.used, by simp⟩, trivial, trivial⟩
  | stop j rest hat => exact ⟨⟨hi.used, hi.name⟩, rfl, rfl⟩

/-- **The published record is replaced by later ones only.** -/
theorem Step.published (h : s.Ok record) (hstep : s.Step record s') {i : Nat}
    (hi : s.disk.published = some i) :
    ∃ j, s'.disk.published = some j ∧ s'.holds i ≤ s'.holds j := by
  obtain ⟨-, -, hholds⟩ := hstep.settled h (h.published i hi)
  cases hstep with
  | create now hat => exact ⟨i, hi, Nat.le_refl _⟩
  | write j piece rest now hat => exact ⟨i, hi, Nat.le_refl _⟩
  | rename j rest hat =>
    have hw := h.writing _ _ hat
    have hset := h.published i hi
    have hne : i ≠ j := fun heq => hset.name (heq ▸ hw.name)
    refine ⟨j, by simp only [Disk.rename, hw.name], ?_⟩
    exact Nat.le_of_lt (hw.older i hset.used hne)
  | stop j rest hat => exact ⟨i, hi, Nat.le_refl _⟩

/-- What was in use before `create`. -/
theorem used_of_create {now i : Nat} (hi : i < (s.disk.create now).used)
    (hne : i ≠ s.disk.target) : i < s.disk.used := by
  simp only [Disk.create, Disk.target] at hi hne
  cases htmp : s.disk.temporary with
  | none =>
    rw [htmp] at hi hne
    simp at hi hne
    omega
  | some j =>
    rw [htmp] at hi
    exact hi

theorem Ok.target_used (h : s.Ok record) (now : Nat) :
    s.disk.target < (s.disk.create now).used := by
  simp only [Disk.create, Disk.target]
  cases htmp : s.disk.temporary with
  | none => simp
  | some j => exact h.temporary j htmp

theorem Ok.create (h : s.Ok record) (hat : s.writer = .idle) (now : Nat) :
    Ok ⟨s.disk.create now, .writing s.disk.target (record s.begun), s.begun + 1,
      Function.update s.holds s.disk.target s.begun⟩ record := by
  have hkeeps {i : Nat} (hi : s.Settled i) := Step.settled h (.create now hat) hi
  -- the other files are older
  have hlt : ∀ i, i < (s.disk.create now).used → i ≠ s.disk.target →
      Function.update s.holds s.disk.target s.begun i < s.begun := by
    intro i hi hne
    rw [Function.update_of_ne hne]
    exact h.begun i (used_of_create hi hne)
  refine ⟨?_, fun i hi => (hkeeps (h.published i hi)).1, ?_, ?_, ?_, ?_⟩
  · intro i hi
    obtain rfl := Option.some.inj hi
    exact h.target_used now
  · intro i hi
    show Function.update s.holds _ s.begun i < s.begun + 1
    by_cases hne : i = s.disk.target
    · rw [hne, Function.update_self]
      exact Nat.lt_succ_self _
    · exact Nat.lt_succ_of_lt (hlt i hi hne)
  · intro i hi
    show (Function.update s.disk.inodes _ _ i).data <+: record (Function.update s.holds _ _ i)
    by_cases hne : i = s.disk.target
    · rw [hne, Function.update_self]
      exact List.nil_prefix
    · rw [Function.update_of_ne hne, Function.update_of_ne hne]
      exact h.data i (used_of_create hi hne)
  · intro i rest heq
    obtain ⟨htarget, hrest⟩ := Writer.writing.inj heq
    rw [← htarget, ← hrest]
    refine ⟨rfl, ?_, ?_, fun j hj hne => ?_⟩
    · show (Function.update s.disk.inodes _ _ _).data ++ _ = record (Function.update s.holds _ _ _)
      rw [Function.update_self, Function.update_self]
      rfl
    · show Function.update s.holds _ s.begun _ + 1 = _
      rw [Function.update_self]
    · show _ < Function.update s.holds _ s.begun _
      rw [Function.update_self]
      exact hlt j hj hne
  · intro i j hj hi hne
    have hine : i ≠ s.disk.target := fun heq => hi.name (congrArg some heq.symm)
    have hset : s.Settled i :=
      ⟨used_of_create hi.used hine, fun htmp => hine (by simp [Disk.target, htmp])⟩
    rw [(hkeeps hset).2.2, (hkeeps (h.published j hj)).2.2]
    exact h.latest i j hj hset hne

theorem Ok.write (h : s.Ok record) {i : Nat} {piece rest : List α}
    (hat : s.writer = .writing i (piece ++ rest)) (now : Nat) :
    Ok { s with disk := s.disk.append i piece now, writer := .writing i rest } record := by
  have hw := h.writing _ _ hat
  have hkeeps {j : Nat} (hj : s.Settled j) := Step.settled h (.write i piece rest now hat) hj
  have hdata : ((s.disk.append i piece now).inodes i).data ++ rest = record (s.holds i) := by
    simp only [Disk.append, Function.update_self, List.append_assoc]
    exact hw.data
  refine ⟨h.temporary, fun j hj => (hkeeps (h.published j hj)).1, h.begun, fun j hj => ?_,
    fun j rest' heq => ?_, fun j k hk hj hne => h.latest j k hk ⟨hj.used, hj.name⟩ hne⟩
  · by_cases hne : j = i
    · rw [hne]
      exact ⟨rest, hdata⟩
    · show (Function.update s.disk.inodes _ _ j).data <+: _
      rw [Function.update_of_ne hne]
      exact h.data j hj
  · obtain ⟨rfl, rfl⟩ := Writer.writing.inj heq
    exact ⟨hw.name, hdata, hw.last, hw.older⟩

theorem Ok.rename (h : s.Ok record) {i : Nat} {rest : List α}
    (hat : s.writer = .writing i rest) :
    Ok { s with disk := s.disk.rename, writer := .idle } record := by
  have hw := h.writing _ _ hat
  simp only [Disk.rename, hw.name]
  refine ⟨fun j hj => by simp at hj, fun j hj => ?_, h.begun, h.data, fun j rest' heq => by simp at heq,
    fun j k hk hj hne => ?_⟩
  · obtain rfl := Option.some.inj hj
    exact ⟨h.temporary _ hw.name, by simp⟩
  · obtain rfl := Option.some.inj hk
    exact hw.older j hj.used hne

theorem Ok.stop (h : s.Ok record) : Ok { s with writer := .idle } record :=
  ⟨h.temporary, fun i hi => ⟨(h.published i hi).used, (h.published i hi).name⟩, h.begun, h.data,
    fun i rest heq => by simp at heq, fun i j hj hi hne => h.latest i j hj ⟨hi.used, hi.name⟩ hne⟩

/-- **The files stay in order**, whatever the writer does. -/
theorem Step.ok (h : s.Ok record) (hstep : s.Step record s') : s'.Ok record := by
  cases hstep with
  | create now hat => exact h.create hat now
  | write i piece rest now hat => exact h.write hat now
  | rename i rest hat => exact h.rename hat
  | stop i rest hat => exact h.stop

end Replacing
end Ambix.Lib
