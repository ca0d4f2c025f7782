import Mathlib.Data.List.Basic
import Mathlib.Data.List.TakeWhile
import Mathlib.Tactic.TypeStar

/-!
# Lines, words and numbers as the C library reads them

`fgets`, `strtok` with blanks and `strtol` to the base 10, of a 64-bit `long`, on lists of
characters, and that they read back what was written for them.
-/

namespace Ambix.Lib

/-! ## `fgets` -/

/-- `fgets` with room for `n` characters besides the terminator: what it stores, up to and with
the next newline, and what is left. -/
def fgets : Nat → List Char → List Char × List Char
  | 0, s => ([], s)
  | _ + 1, [] => ([], [])
  | n + 1, c :: s => if c = '\n' then ([c], s) else (c :: (fgets n s).1, (fgets n s).2)

section

variable {n : Nat} {s line : List Char}

theorem fgets_append (n : Nat) (s : List Char) : (fgets n s).1 ++ (fgets n s).2 = s := by
  induction n generalizing s with
  | zero => rfl
  | succ n ih =>
    cases s with
    | nil => rfl
    | cons c s =>
      unfold fgets
      split
      · rfl
      · simp only [List.cons_append, ih]

theorem fgets_ne_nil (hn : 0 < n) (hs : s ≠ []) : (fgets n s).1 ≠ [] := by
  obtain ⟨n, rfl⟩ := Nat.exists_eq_add_of_lt hn
  cases s with
  | nil => exact absurd rfl hs
  | cons c s =>
    rw [Nat.zero_add]
    unfold fgets
    split <;> simp

/-- What is left is less. -/
theorem fgets_rest_lt (hn : 0 < n) (hs : s ≠ []) : (fgets n s).2.length < s.length := by
  have hlen := congrArg List.length (fgets_append n s)
  have hpos := List.length_pos_of_ne_nil (fgets_ne_nil hn hs)
  rw [List.length_append] at hlen
  omega

/-- A line that there is room for. -/
theorem fgets_line (h : '\n' ∉ line) (hlen : line.length < n) (s : List Char) :
    fgets n (line ++ '\n' :: s) = (line ++ ['\n'], s) := by
  induction line generalizing n with
  | nil =>
    obtain ⟨n, rfl⟩ := Nat.exists_eq_add_of_lt hlen
    simp [fgets]
  | cons c line ih =>
    obtain ⟨m, rfl⟩ : ∃ m, n = m + 1 := ⟨n - 1, by simp only [List.length_cons] at hlen; omega⟩
    obtain ⟨hc, hline⟩ := not_or.mp (fun hmem => h (List.mem_cons.mpr hmem))
    rw [List.cons_append, fgets, if_neg (Ne.symm hc),
      ih hline (by simp only [List.length_cons] at hlen; omega)]
    rfl

end

/-- What one `fgets` after the other stores, until the end of the input. -/
def chunks (n : Nat) (s : List Char) : List (List Char) :=
  if h : 0 < n ∧ s ≠ [] then
    have := fgets_rest_lt h.1 h.2
    (fgets n s).1 :: chunks n (fgets n s).2
  else []
termination_by s.length

section

variable {n : Nat} {s line : List Char}

theorem chunks_nil (n : Nat) : chunks n [] = [] := by
  rw [chunks]
  simp

theorem chunks_of_ne_nil (hn : 0 < n) (hs : s ≠ []) :
    chunks n s = (fgets n s).1 :: chunks n (fgets n s).2 := by
  rw [chunks, dif_pos ⟨hn, hs⟩]

/-- A line that there is room for is a chunk. -/
theorem chunks_line (h : '\n' ∉ line) (hlen : line.length < n) (s : List Char) :
    chunks n (line ++ '\n' :: s) = (line ++ ['\n']) :: chunks n s := by
  rw [chunks_of_ne_nil (by omega) (by simp), fgets_line h hlen]

end

/-- The string that a buffer holds. -/
def cstr (s : List Char) : List Char := s.takeWhile fun c => c ≠ Char.ofNat 0

theorem cstr_eq {s : List Char} (h : Char.ofNat 0 ∉ s) : cstr s = s := by
  refine List.takeWhile_eq_self_iff.mpr fun c hc => ?_
  exact decide_eq_true fun heq => h (heq ▸ hc)

/-! ## `strtok` -/

/-- `strtok(s, " ")`: the first word and what the next call goes on with. -/
def strtok (s : List Char) : Option (List Char × List Char) :=
  match s.dropWhile fun c => c = ' ' with
  | [] => none
  | c :: s => some ((c :: s).takeWhile fun c => c ≠ ' ', ((c :: s).dropWhile fun c => c ≠ ' ').drop 1)

section

variable {word : List Char}

theorem strtok_of_word (hne : word ≠ []) (hword : ' ' ∉ word) {s : List Char}
    (hs : ∀ c, s.head? = some c → c = ' ') : strtok (word ++ s) = some (word, s.drop 1) := by
  have hall : ∀ c ∈ word, decide (c ≠ ' ') = true :=
    fun c hc => decide_eq_true fun heq => hword (heq ▸ hc)
  cases word with
  | nil => exact absurd rfl hne
  | cons c word =>
    have hc : c ≠ ' ' := fun heq => hword (heq ▸ List.mem_cons_self)
    have hrest : s.takeWhile (fun c => decide (c ≠ ' ')) = [] ∧
        s.dropWhile (fun c => decide (c ≠ ' ')) = s := by
      cases s with
      | nil => exact ⟨rfl, rfl⟩
      | cons d s =>
        rw [hs d rfl]
        exact ⟨rfl, rfl⟩
    unfold strtok
    rw [List.cons_append, List.dropWhile_cons_of_neg (by simpa using hc)]
    simp only
    rw [← List.cons_append, List.takeWhile_append_of_pos hall, List.dropWhile_append_of_pos hall,
      hrest.1, hrest.2, List.append_nil]

/-- A word before a blank. -/
theorem strtok_word (hne : word ≠ []) (hword : ' ' ∉ word) (s : List Char) :
    strtok (word ++ ' ' :: s) = some (word, s) :=
  strtok_of_word hne hword (s := ' ' :: s) fun _ hc => (Option.some.inj hc).symm

/-- The last word. -/
theorem strtok_last (hne : word ≠ []) (hword : ' ' ∉ word) : strtok word = some (word, []) := by
  have := strtok_of_word hne hword (s := []) fun _ hc => absurd hc (by simp)
  rwa [List.append_nil] at this

end

/-! ## `strtol` -/

/-- `isspace`. -/
def isspace (c : Char) : Bool := c = ' ' || (9 ≤ c.toNat && c.toNat ≤ 13)

def longMin : Int := -9223372036854775808

def longMax : Int := 9223372036854775807

/-- The number that the digits at the start stand for. -/
def digitsValue (s : List Char) : Nat := Nat.ofDigitChars 10 (s.takeWhile Char.isDigit) 0

/-- `strtol(s, NULL, 10)`. -/
def strtol (s : List Char) : Int :=
  match s.dropWhile isspace with
  | '-' :: s => max (-(digitsValue s : Int)) longMin
  | '+' :: s => min (digitsValue s) longMax
  | s => min (digitsValue s) longMax

/-- A number as `%ld` prints it. -/
def decimal (n : Int) : List Char :=
  if n < 0 then '-' :: Nat.toDigits 10 n.natAbs else Nat.toDigits 10 n.natAbs

section

variable {n : Int} {s : List Char}

theorem isDigit_ne {c d : Char} (hc : c.isDigit = true) (hd : d.isDigit = false) : c ≠ d := by
  rintro rfl
  exact absurd (hc.symm.trans hd) (by simp)

theorem mem_digits {m : Nat} {c : Char} (hc : c ∈ Nat.toDigits 10 m) : c.isDigit = true :=
  Nat.isDigit_of_mem_toDigits (by decide) (by decide) hc

theorem decimal_ne_nil (n : Int) : decimal n ≠ [] := by
  unfold decimal
  split
  · simp
  · exact Nat.toDigits_ne_nil

/-- A number has digits and at most a sign. -/
theorem mem_decimal {c : Char} (hc : c ∈ decimal n) : c = '-' ∨ c.isDigit = true := by
  unfold decimal at hc
  split at hc
  · exact (List.mem_cons.mp hc).imp_right mem_digits
  · exact .inr (mem_digits hc)

theorem not_mem_decimal {c : Char} (hsign : c ≠ '-') (hdigit : c.isDigit = false) :
    c ∉ decimal n := by
  intro hc
  rcases mem_decimal hc with h | h
  · exact hsign h
  · exact absurd (h.symm.trans hdigit) (by simp)

theorem decimal_length (hlo : longMin ≤ n) (hhi : n ≤ longMax) : (decimal n).length ≤ 20 := by
  have hlen : (Nat.toDigits 10 n.natAbs).length ≤ 19 := by
    refine (Nat.length_toDigits_le_iff (by decide) (by decide)).mpr ?_
    unfold longMin at hlo
    unfold longMax at hhi
    omega
  unfold decimal
  split
  · simp only [List.length_cons]
    omega
  · omega

theorem digitsValue_digits (m : Nat) (hs : ∀ c, s.head? = some c → c.isDigit = false) :
    digitsValue (Nat.toDigits 10 m ++ s) = m := by
  have hall : ∀ c ∈ Nat.toDigits 10 m, c.isDigit = true := fun c hc => mem_digits hc
  have hstop : s.takeWhile Char.isDigit = [] := by
    cases s with
    | nil => rfl
    | cons c s => exact List.takeWhile_cons_of_neg (by rw [hs c rfl]; simp)
  unfold digitsValue
  rw [List.takeWhile_append_of_pos hall, hstop, List.append_nil, Nat.ofDigitChars_ten_toDigits]

theorem strtol_minus (s : List Char) : strtol ('-' :: s) = max (-(digitsValue s : Int)) longMin := rfl

/-- A digit is neither a blank nor a sign. -/
theorem isspace_digit {c : Char} (hc : c.isDigit = true) : isspace c = false := by
  have hlo : 48 ≤ c.toNat := by
    simp only [Char.isDigit, Bool.and_eq_true, decide_eq_true_eq] at hc
    exact hc.1
  unfold isspace
  simp only [Bool.or_eq_false_iff, decide_eq_false_iff_not, Bool.and_eq_false_iff]
  refine ⟨isDigit_ne hc (by decide), .inr ?_⟩
  omega

theorem strtol_digit {c : Char} (hc : c.isDigit = true) (s : List Char) :
    strtol (c :: s) = min (digitsValue (c :: s) : Int) longMax := by
  have hdrop : (c :: s).dropWhile isspace = c :: s :=
    List.dropWhile_cons_of_neg (by rw [isspace_digit hc]; simp)
  unfold strtol
  rw [hdrop]
  split
  · rename_i heq
    exact absurd (List.cons.inj heq).1 (isDigit_ne hc (by decide))
  · rename_i heq
    exact absurd (List.cons.inj heq).1 (isDigit_ne hc (by decide))
  · rfl

/-- **A number is read back**, whatever follows it but a digit. -/
theorem strtol_decimal (hlo : longMin ≤ n) (hhi : n ≤ longMax)
    (hs : ∀ c, s.head? = some c → c.isDigit = false) : strtol (decimal n ++ s) = n := by
  have hvalue := digitsValue_digits n.natAbs hs
  unfold decimal
  by_cases hneg : n < 0
  · rw [if_pos hneg, List.cons_append, strtol_minus, hvalue]
    omega
  · rw [if_neg hneg]
    cases hdigits : Nat.toDigits 10 n.natAbs with
    | nil => exact absurd hdigits Nat.toDigits_ne_nil
    | cons c digits =>
      have hc : c.isDigit = true := mem_digits (hdigits ▸ List.mem_cons_self)
      rw [hdigits, List.cons_append] at hvalue
      rw [List.cons_append, strtol_digit hc, hvalue]
      omega

end

end Ambix.Lib
