import Mathlib.Data.List.Basic
import Mathlib.Data.List.Infix
import Mathlib.Data.List.Nodup
import Mathlib.Tactic.TypeStar

/-!
# Selecting from a stream under a quota

A scan looks at the elements of a stream one after the other and gives each a
verdict: **primary** elements are selected at once, **backup** elements are put
aside in case the stream does not hold enough primaries, the others are passed
over. It stops at the first element met after the quota is full.

* `scan` is the machine: its spare list only grows while it is shorter than the
  part of the quota that is still open, a bound that shrinks with every primary.
* `select` is what the machine is for, with no bound on the spare list: the
  primaries, then the backups, cut at the quota.
* `take_scan` says the bound never costs anything.
-/

namespace Ambix.Lib.QuotaScan

/-- What a scan does with one element. -/
inductive Verdict
  | primary
  | backup
  | skip
deriving DecidableEq, Repr

variable {α : Type*} (v : α → Verdict)

def primaries (xs : List α) : List α := xs.filter fun x => v x = .primary

def backups (xs : List α) : List α := xs.filter fun x => v x = .backup

/-- The first `n` of the primaries when there are as many, otherwise all of
them and as many backups as the quota still takes. -/
def select (n : Nat) (xs : List α) : List α :=
  if n ≤ (primaries v xs).length then (primaries v xs).take n
  else primaries v xs ++
    (backups v xs).take (min (n - (primaries v xs).length) (backups v xs).length)

/-- The state of a scan: what it selected and what it put aside. -/
structure Pick (α : Type*) where
  found : List α
  spare : List α

def Pick.empty : Pick α := ⟨[], []⟩

/-- One element of a scan, put aside only where there is `room`. -/
def offer (room : Prop) [Decidable room] (st : Pick α) (x : α) : Pick α :=
  match v x with
  | .primary => { st with found := st.found ++ [x] }
  | .backup => if room then { st with spare := st.spare ++ [x] } else st
  | .skip => st

/-- One element of a scan whose quota is not full. -/
def feed (n : Nat) (st : Pick α) (x : α) : Pick α :=
  offer v (st.spare.length < n - st.found.length) st x

/-- The scan: it stops when the quota is full. -/
def scan (n : Nat) : List α → Pick α → Pick α
  | [], st => st
  | x :: xs, st => if st.found.length = n then st else scan n xs (feed v n st x)

/-- The elements a scan with quota `n` looks at. -/
def examined : Nat → List α → List α
  | 0, _ => []
  | _ + 1, [] => []
  | n + 1, x :: xs => x :: examined (if v x = .primary then n else n + 1) xs

/-- The elements left over when the scan stops. -/
def unexamined : Nat → List α → List α
  | 0, xs => xs
  | _ + 1, [] => []
  | n + 1, x :: xs => unexamined (if v x = .primary then n else n + 1) xs

section Lists

@[simp] theorem primaries_nil : primaries v [] = [] := rfl
@[simp] theorem backups_nil : backups v [] = [] := rfl

@[simp] theorem primaries_append (xs ys : List α) :
    primaries v (xs ++ ys) = primaries v xs ++ primaries v ys := List.filter_append ..

@[simp] theorem backups_append (xs ys : List α) :
    backups v (xs ++ ys) = backups v xs ++ backups v ys := List.filter_append ..

theorem primaries_singleton (x : α) :
    primaries v [x] = if v x = .primary then [x] else [] := by
  by_cases h : v x = .primary <;> simp [primaries, h]

theorem backups_singleton (x : α) :
    backups v [x] = if v x = .backup then [x] else [] := by
  by_cases h : v x = .backup <;> simp [backups, h]

theorem mem_primaries {x : α} {xs : List α} :
    x ∈ primaries v xs ↔ x ∈ xs ∧ v x = .primary := by simp [primaries]

theorem mem_backups {x : α} {xs : List α} :
    x ∈ backups v xs ↔ x ∈ xs ∧ v x = .backup := by simp [backups]

/-- The selection is the primaries followed by the backups, cut at the quota. -/
theorem select_eq_take (n : Nat) (xs : List α) :
    select v n xs = (primaries v xs ++ backups v xs).take n := by
  unfold select
  split
  · rename_i h
    rw [List.take_append_of_le_length h]
  · rename_i h
    rw [List.take_append, List.take_of_length_le (Nat.le_of_lt (Nat.lt_of_not_le h)),
      ← List.take_eq_take_min]

theorem mem_select {n : Nat} {x : α} {xs : List α} (h : x ∈ select v n xs) :
    x ∈ xs ∧ v x ≠ .skip := by
  rw [select_eq_take] at h
  rcases List.mem_append.mp (List.mem_of_mem_take h) with h | h
  · obtain ⟨hx, hv⟩ := (mem_primaries v).mp h
    exact ⟨hx, by simp [hv]⟩
  · obtain ⟨hx, hv⟩ := (mem_backups v).mp h
    exact ⟨hx, by simp [hv]⟩

theorem length_select (n : Nat) (xs : List α) :
    (select v n xs).length = min n ((primaries v xs).length + (backups v xs).length) := by
  rw [select_eq_take, List.length_take, List.length_append]

@[simp] theorem examined_zero (xs : List α) : examined v 0 xs = [] := by cases xs <;> rfl

theorem examined_append_unexamined (n : Nat) (xs : List α) :
    examined v n xs ++ unexamined v n xs = xs := by
  induction xs generalizing n with
  | nil => cases n <;> rfl
  | cons x xs ih =>
    cases n with
    | zero => rfl
    | succ n => simp [examined, unexamined, ih]

/-- The primaries a scan looks at are the first ones of the stream. -/
theorem primaries_examined (n : Nat) (xs : List α) :
    primaries v (examined v n xs) = (primaries v xs).take n := by
  induction xs generalizing n with
  | nil => cases n <;> simp [examined]
  | cons x xs ih =>
    cases n with
    | zero => simp [examined]
    | succ n =>
      by_cases hx : v x = .primary
      · simp [examined, primaries, hx] at ih ⊢
        exact ih n
      · simp [examined, primaries, hx] at ih ⊢
        exact ih (n + 1)

/-- With too few primaries the whole stream is looked at. -/
theorem examined_of_lt {n : Nat} {xs : List α} (h : (primaries v xs).length < n) :
    examined v n xs = xs := by
  induction xs generalizing n with
  | nil => cases n <;> rfl
  | cons x xs ih =>
    cases n with
    | zero => omega
    | succ n =>
      by_cases hx : v x = .primary
      · have hlt : (primaries v xs).length < n := by
          simpa [primaries, hx] using h
        simp [examined, hx, ih hlt]
      · have hlt : (primaries v xs).length < n + 1 := by
          simpa [primaries, hx] using h
        simp [examined, hx, ih hlt]

end Lists

/-- A full scan stays as it is. -/
theorem scan_full {n : Nat} {st : Pick α} (h : st.found.length = n) (xs : List α) :
    scan v n xs st = st := by
  cases xs <;> simp [scan, h]

/-- Scanning two streams one after the other. -/
theorem scan_append (n : Nat) (xs ys : List α) (st : Pick α) :
    scan v n (xs ++ ys) st = scan v n ys (scan v n xs st) := by
  induction xs generalizing st with
  | nil => rfl
  | cons x xs ih =>
    by_cases hfull : st.found.length = n
    · rw [scan_full v hfull, scan_full v hfull, scan_full v hfull]
    · simp [scan, hfull, ih]

/-! ## The invariant of the machine -/

/-- What a scan has made of the elements `seen` so far. Either its spare list
already covers the open part of the quota or it has refused no backup yet. -/
structure Fed (n : Nat) (seen : List α) (st : Pick α) : Prop where
  found : st.found = primaries v seen
  bound : st.found.length ≤ n
  spare : st.spare <+: backups v seen
  enough : n - st.found.length ≤ st.spare.length ∨ st.spare = backups v seen

theorem Fed.empty (n : Nat) : Fed v n [] (Pick.empty : Pick α) :=
  ⟨rfl, Nat.zero_le n, List.prefix_refl _, Or.inr rfl⟩

/-- One element preserves the invariant: a refused backup was not needed, and
every later primary only lowers the need. -/
theorem Fed.feed {n : Nat} {seen : List α} {st : Pick α} (h : Fed v n seen st)
    (hopen : st.found.length ≠ n) (x : α) : Fed v n (seen ++ [x]) (feed v n st x) := by
  have hlt : st.found.length < n := Nat.lt_of_le_of_ne h.bound hopen
  unfold QuotaScan.feed offer
  cases hx : v x with
  | primary =>
    refine ⟨by simp [h.found, primaries_singleton, hx], by simp; omega,
      by simpa [backups_singleton, hx] using h.spare, ?_⟩
    rcases h.enough with henough | hall
    · exact Or.inl (by simp; omega)
    · exact Or.inr (by simp [hall, backups_singleton, hx])
  | backup =>
    by_cases hroom : st.spare.length < n - st.found.length
    · have hall : st.spare = backups v seen := h.enough.resolve_left (by omega)
      simp only [hroom, if_true]
      exact ⟨by simp [h.found, primaries_singleton, hx], h.bound,
        by simp [hall, backups_singleton, hx], Or.inr (by simp [hall, backups_singleton, hx])⟩
    · simp only [hroom, if_false]
      refine ⟨by simp [h.found, primaries_singleton, hx], h.bound, ?_, Or.inl (by omega)⟩
      rw [backups_append]
      exact h.spare.trans (List.prefix_append _ _)
  | skip =>
    exact ⟨by simp [h.found, primaries_singleton, hx], h.bound,
      by simpa [backups_singleton, hx] using h.spare, by simpa [backups_singleton, hx] using h.enough⟩

/-- What `offer` adds to a scan is the element it was offered, and not a skipped one. -/
theorem mem_offer {room : Prop} [Decidable room] {st : Pick α} {x y : α}
    (h : y ∈ (offer v room st x).found ++ (offer v room st x).spare) :
    y ∈ st.found ++ st.spare ∨ y = x ∧ v x ≠ .skip := by
  unfold offer at h
  cases hx : v x with
  | primary =>
    simp only [hx, List.append_assoc, List.mem_append, List.mem_singleton] at h
    simp only [List.mem_append]
    rcases h with h | h | h
    · exact Or.inl (Or.inl h)
    · exact Or.inr ⟨h, by decide⟩
    · exact Or.inl (Or.inr h)
  | backup =>
    simp only [hx] at h
    split at h
    · simp only [List.mem_append, List.mem_singleton] at h
      simp only [List.mem_append]
      rcases h with h | h | h
      · exact Or.inl (Or.inl h)
      · exact Or.inl (Or.inr h)
      · exact Or.inr ⟨h, by decide⟩
    · exact Or.inl h
  | skip =>
    simp only [hx] at h
    exact Or.inl h

/-- What one element leaves of the quota. -/
theorem feed_quota {n k : Nat} {st : Pick α} {x : α} (h : n - st.found.length = k + 1) :
    n - (feed v n st x).found.length = if v x = .primary then k else k + 1 := by
  unfold feed offer
  cases hx : v x with
  | primary => simp; omega
  | backup => simp only; split <;> simp [h]
  | skip => simp [h]

/-- A scan with quota `n` from the start ends having fed `examined v n xs`. -/
theorem Fed.scan {n : Nat} {seen : List α} {st : Pick α} (h : Fed v n seen st)
    (xs : List α) :
    Fed v n (seen ++ examined v (n - st.found.length) xs) (scan v n xs st) := by
  induction xs generalizing seen st with
  | nil =>
    have : examined v (n - st.found.length) [] = [] := by
      cases n - st.found.length <;> rfl
    simpa [QuotaScan.scan, this] using h
  | cons x xs ih =>
    unfold QuotaScan.scan
    by_cases hfull : st.found.length = n
    · simpa [hfull, examined] using h
    · have hlt : st.found.length < n := Nat.lt_of_le_of_ne h.bound hfull
      obtain ⟨k, hk⟩ : ∃ k, n - st.found.length = k + 1 := ⟨n - st.found.length - 1, by omega⟩
      have := ih (h.feed v hfull x)
      rw [feed_quota v hk] at this
      simpa [hfull, hk, examined] using this

theorem scan_fed (n : Nat) (xs : List α) :
    Fed v n (examined v n xs) (scan v n xs Pick.empty) := by
  simpa [Pick.empty] using (Fed.empty v n).scan v xs

/-! ## What a scan returns -/

theorem scan_found (n : Nat) (xs : List α) :
    (scan v n xs Pick.empty).found = (primaries v xs).take n := by
  rw [(scan_fed v n xs).found, primaries_examined]

/-- What a scan puts aside are the first backups of the stream. -/
theorem scan_backups (n : Nat) (xs : List α) :
    (scan v n xs Pick.empty).spare <+: backups v xs := by
  have hspare := (scan_fed v n xs).spare
  have hall : backups v xs = backups v (examined v n xs) ++ backups v (unexamined v n xs) := by
    rw [← backups_append, examined_append_unexamined]
  rw [hall]
  exact hspare.trans (List.prefix_append _ _)

/-- A scan that did not fill its quota has put aside as many backups as it can
still use, or all of them. -/
theorem scan_spare {n : Nat} {xs : List α} (h : (primaries v xs).length < n) :
    (scan v n xs Pick.empty).spare <+: backups v xs ∧
      (n - (primaries v xs).length ≤ (scan v n xs Pick.empty).spare.length ∨
        (scan v n xs Pick.empty).spare = backups v xs) := by
  have hfed := scan_fed v n xs
  have hfound : (scan v n xs Pick.empty).found.length = (primaries v xs).length := by
    rw [scan_found, List.take_of_length_le (Nat.le_of_lt h)]
  rw [examined_of_lt v h] at hfed
  exact ⟨hfed.spare, hfound ▸ hfed.enough⟩

/-- As far as the open part of the quota goes, the spare list holds the first
backups of the whole stream. -/
theorem take_spare {n m : Nat} {xs : List α} (h : (primaries v xs).length < n)
    (hm : m ≤ n - (primaries v xs).length) :
    (scan v n xs Pick.empty).spare.take m = (backups v xs).take m := by
  obtain ⟨⟨rest, hrest⟩, henough⟩ := scan_spare v h
  rcases henough with henough | hall
  · rw [← hrest, List.take_append_of_le_length (by omega)]
  · rw [hall]

/-- **The shrinking bound costs nothing**: as far as the quota goes, the found list and then
the spare list begin like the candidates of the whole stream. -/
theorem take_scan {n k : Nat} (hk : k ≤ n) (xs : List α) :
    ((scan v n xs Pick.empty).found ++ (scan v n xs Pick.empty).spare).take k =
      select v k xs := by
  rw [select_eq_take, scan_found]
  by_cases h : n ≤ (primaries v xs).length
  · have hlen : k ≤ ((primaries v xs).take n).length := by
      rw [List.length_take]
      omega
    rw [List.take_append_of_le_length hlen, List.take_append_of_le_length (by omega),
      List.take_take, Nat.min_eq_left hk]
  · have hlt : (primaries v xs).length < n := by omega
    rw [List.take_of_length_le (Nat.le_of_lt hlt), List.take_append, List.take_append,
      take_spare v hlt (by omega)]

/-- The found list, topped up from the spare list, is the selection. -/
theorem scan_select (n : Nat) (xs : List α) :
    (scan v n xs Pick.empty).found ++
        (scan v n xs Pick.empty).spare.take (n - (scan v n xs Pick.empty).found.length) =
      select v n xs := by
  have hlen : (scan v n xs Pick.empty).found.length ≤ n := by
    rw [scan_found]
    exact List.length_take_le _ _
  rw [← take_scan v (Nat.le_refl n), List.take_append, List.take_of_length_le hlen]

theorem feed_length (n : Nat) (st : Pick α) (x : α) :
    (feed v n st x).found.length = st.found.length + (primaries v [x]).length := by
  rw [primaries_singleton]
  cases hx : v x with
  | primary => simp [feed, offer, hx]
  | backup =>
    simp only [feed, offer, hx]
    split <;> simp
  | skip => simp [feed, offer, hx]

/-- How far the quota is filled. -/
theorem scan_length {n : Nat} {st : Pick α} (h : st.found.length ≤ n) (xs : List α) :
    (scan v n xs st).found.length = min n (st.found.length + (primaries v xs).length) := by
  induction xs generalizing st with
  | nil => simp [scan, h]
  | cons x xs ih =>
    unfold scan
    by_cases hfull : st.found.length = n
    · simp [hfull]
    · have hlen := feed_length v n st x
      have hone : (primaries v [x]).length ≤ 1 := List.length_filter_le _ _
      have hcons : (primaries v (x :: xs)).length =
          (primaries v [x]).length + (primaries v xs).length := by
        rw [← List.singleton_append, primaries_append, List.length_append]
      rw [if_neg hfull, ih (by omega), hlen, hcons, Nat.add_assoc]

/-- With too few primaries nothing is left over. -/
theorem unexamined_of_lt {n : Nat} {xs : List α} (h : (primaries v xs).length < n) :
    unexamined v n xs = [] := by
  have hall := examined_append_unexamined v n xs
  rw [examined_of_lt v h] at hall
  exact List.append_right_eq_self.mp hall

/-- Two streams one after the other: the second is reached when the first does not
fill the quota. -/
theorem examined_append_of_le {n : Nat} {xs : List α} (h : n ≤ (primaries v xs).length)
    (ys : List α) : examined v n (xs ++ ys) = examined v n xs ∧
      unexamined v n (xs ++ ys) = unexamined v n xs ++ ys := by
  induction xs generalizing n with
  | nil =>
    obtain rfl : n = 0 := by simpa using h
    simp [examined, unexamined]
  | cons x xs ih =>
    cases n with
    | zero => exact ⟨rfl, rfl⟩
    | succ n =>
      by_cases hx : v x = .primary
      · have hle : n ≤ (primaries v xs).length := by simpa [primaries, hx] using h
        simp [examined, unexamined, hx, ih hle]
      · have hle : n + 1 ≤ (primaries v xs).length := by simpa [primaries, hx] using h
        simp [examined, unexamined, hx, ih hle]

theorem examined_append_of_lt {n : Nat} {xs : List α} (h : (primaries v xs).length < n)
    (ys : List α) :
    examined v n (xs ++ ys) = xs ++ examined v (n - (primaries v xs).length) ys ∧
      unexamined v n (xs ++ ys) = unexamined v (n - (primaries v xs).length) ys := by
  induction xs generalizing n with
  | nil => exact ⟨rfl, rfl⟩
  | cons x xs ih =>
    cases n with
    | zero => omega
    | succ n =>
      by_cases hx : v x = .primary
      · have hlt : (primaries v xs).length < n := by simpa [primaries, hx] using h
        have hlen : n + 1 - (primaries v (x :: xs)).length = n - (primaries v xs).length := by
          simp [primaries, hx]
        simp only [List.cons_append, examined, unexamined, hx, if_true, ih hlt, hlen, and_self]
      · have hlt : (primaries v xs).length < n + 1 := by simpa [primaries, hx] using h
        have hlen : n + 1 - (primaries v (x :: xs)).length =
            n + 1 - (primaries v xs).length := by
          simp [primaries, hx]
        simp only [List.cons_append, examined, unexamined, hx, if_false, ih hlt, hlen, and_self]

/-- What a scan looks at is the front of the stream. -/
theorem examined_eq_take (n : Nat) (xs : List α) :
    examined v n xs = xs.take (examined v n xs).length := by
  have h : (examined v n xs ++ unexamined v n xs).take (examined v n xs).length =
      examined v n xs := List.take_left
  rw [examined_append_unexamined] at h
  exact h.symm

theorem unexamined_eq_drop (n : Nat) (xs : List α) :
    unexamined v n xs = xs.drop (examined v n xs).length := by
  have h : (examined v n xs ++ unexamined v n xs).drop (examined v n xs).length =
      unexamined v n xs := List.drop_left
  rw [examined_append_unexamined] at h
  exact h.symm

theorem examined_ne_nil {n : Nat} (hn : 0 < n) {xs : List α} (h : n ≤ (primaries v xs).length) :
    examined v n xs ≠ [] := by
  intro hnil
  have htake := primaries_examined v n xs
  rw [hnil, primaries_nil] at htake
  have := congrArg List.length htake
  simp at this
  omega

/-! ## A stream that ends in a repeat

`f` is the identity of an element. The stream `xs ++ [y]` repeats one element of
`xs`, otherwise its elements are distinct.
-/

section Repeat

variable {β : Type*} {f : α → β}

/-- The primaries and the backups are the elements that are not skipped. -/
theorem select_perm (xs : List α) :
    (primaries v xs ++ backups v xs).Perm (xs.filter fun x => v x ≠ .skip) := by
  have hsplit := List.filter_append_perm (fun x => decide (v x = .primary))
    (xs.filter fun x => v x ≠ .skip)
  rw [List.filter_filter, List.filter_filter] at hsplit
  have hp : xs.filter (fun x => decide (v x = .primary) && decide (v x ≠ .skip)) =
      primaries v xs :=
    List.filter_congr fun x _ => by cases v x <;> rfl
  have hb : xs.filter (fun x => !decide (v x = .primary) && decide (v x ≠ .skip)) =
      backups v xs :=
    List.filter_congr fun x _ => by cases v x <;> rfl
  rwa [hp, hb] at hsplit

theorem nodup_candidates {xs : List α} (h : (xs.map f).Nodup) :
    ((primaries v xs ++ backups v xs).map f).Nodup :=
  ((select_perm v xs).map f).nodup_iff.mpr (h.sublist (List.filter_sublist.map f))

/-- Distinct elements are selected at most once. -/
theorem select_nodup {xs : List α} (h : (xs.map f).Nodup) (n : Nat) :
    ((select v n xs).map f).Nodup := by
  rw [select_eq_take]
  exact (nodup_candidates v h).sublist ((List.take_sublist _ _).map f)

/-- A repeated element is in a prefix twice when the prefix reaches its second
occurrence. -/
theorem nodup_take_mid {xs ys : List α} {y : α} (h : ((xs ++ ys).map f).Nodup)
    (hy : f y ∈ xs.map f) (n : Nat) :
    (((xs ++ y :: ys).take n).map f).Nodup ↔ n ≤ xs.length := by
  constructor
  · intro hnodup
    by_contra hlt
    have hlt : xs.length < n := Nat.lt_of_not_le hlt
    obtain ⟨k, hk⟩ : ∃ k, n - xs.length = k + 1 := ⟨n - xs.length - 1, by omega⟩
    rw [List.take_append, hk, List.take_of_length_le (Nat.le_of_lt hlt), List.take_succ_cons,
      List.map_append, List.map_cons, List.nodup_append] at hnodup
    exact hnodup.2.2 _ hy _ List.mem_cons_self rfl
  · intro hle
    rw [List.take_append_of_le_length hle]
    refine h.sublist (List.Sublist.map f ?_)
    exact (List.take_sublist _ _).trans (List.sublist_append_left _ _)

/-- An element that occurs once is in a prefix that reaches it. -/
theorem mem_take_mid {xs ys : List α} {y : α} (hy : f y ∉ (xs ++ ys).map f) (n : Nat) :
    f y ∈ ((xs ++ y :: ys).take n).map f ↔ xs.length < n := by
  rw [List.map_append, List.mem_append, not_or] at hy
  constructor
  · intro hmem
    by_contra hle
    rw [List.take_append_of_le_length (Nat.le_of_not_lt hle), List.map_take] at hmem
    exact hy.1 (List.mem_of_mem_take hmem)
  · intro hlt
    obtain ⟨k, hk⟩ : ∃ k, n - xs.length = k + 1 := ⟨n - xs.length - 1, by omega⟩
    rw [List.take_append, hk, List.take_succ_cons]
    simp

variable {xs : List α} {y : α}

theorem candidates_concat_primary (h : v y = .primary) :
    primaries v (xs ++ [y]) ++ backups v (xs ++ [y]) = primaries v xs ++ y :: backups v xs := by
  simp [primaries_singleton, backups_singleton, h]

theorem candidates_concat_backup (h : v y = .backup) :
    primaries v (xs ++ [y]) ++ backups v (xs ++ [y]) =
      (primaries v xs ++ backups v xs) ++ y :: [] := by
  simp [primaries_singleton, backups_singleton, h]

theorem candidates_concat_skip (h : v y = .skip) :
    primaries v (xs ++ [y]) ++ backups v (xs ++ [y]) = primaries v xs ++ backups v xs := by
  simp [primaries_singleton, backups_singleton, h]

/-- A repeated primary is selected twice when the quota exceeds the distinct
primaries. -/
theorem select_repeat_primary (hxs : (xs.map f).Nodup) (h : v y = .primary)
    (hy : f y ∈ (primaries v xs).map f) (n : Nat) :
    ((select v n (xs ++ [y])).map f).Nodup ↔ n ≤ (primaries v xs).length := by
  rw [select_eq_take, candidates_concat_primary v h]
  exact nodup_take_mid (nodup_candidates v hxs) hy n

/-- A repeated backup is selected twice when the quota exceeds all distinct
candidates. -/
theorem select_repeat_backup (hxs : (xs.map f).Nodup) (h : v y = .backup)
    (hy : f y ∈ (primaries v xs ++ backups v xs).map f) (n : Nat) :
    ((select v n (xs ++ [y])).map f).Nodup ↔
      n ≤ (primaries v xs).length + (backups v xs).length := by
  rw [select_eq_take, candidates_concat_backup v h, ← List.length_append]
  exact nodup_take_mid (by simpa using nodup_candidates v hxs) hy n

/-- A backup that is no repeat of a candidate is selected once all the others are. -/
theorem mem_select_last_backup (h : v y = .backup)
    (hy : f y ∉ (primaries v xs ++ backups v xs).map f) (n : Nat) :
    f y ∈ (select v n (xs ++ [y])).map f ↔
      (primaries v xs).length + (backups v xs).length < n := by
  rw [select_eq_take, candidates_concat_backup v h, ← List.length_append]
  exact mem_take_mid (by simpa using hy) n

/-- It occurs once. -/
theorem select_last_nodup (hxs : (xs.map f).Nodup)
    (hy : f y ∉ (primaries v xs ++ backups v xs).map f) (n : Nat) :
    ((select v n (xs ++ [y])).map f).Nodup := by
  have hcand := nodup_candidates v hxs
  rw [select_eq_take]
  refine List.Nodup.sublist ((List.take_sublist _ _).map f) ?_
  cases h : v y with
  | primary =>
    rw [candidates_concat_primary v h, List.map_append, List.map_cons, List.nodup_middle,
      ← List.map_append, List.nodup_cons]
    exact ⟨hy, hcand⟩
  | backup =>
    rw [candidates_concat_backup v h, List.map_append, List.map_cons, List.nodup_middle,
      ← List.map_append, List.append_nil, List.nodup_cons]
    exact ⟨hy, hcand⟩
  | skip => rwa [candidates_concat_skip v h]

end Repeat

end Ambix.Lib.QuotaScan
