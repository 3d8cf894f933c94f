import Mathlib.Algebra.Ring.Nat
import Mathlib.Data.Nat.Log

/-!
# Decimal Digits

Numbers as text: in a fixed width, as the fields of a date are written, and as
short as possible. A reader takes a fixed number of digits, or all digits there
are, and leaves the rest of the text.

The digits of a concatenation are read as one number, so leading zeros do not
count and a text may be cut anywhere between two digits.

## Main definitions

* `pad`: A number in a fixed width.
* `natText`: A number without leading zeros.
* `readDigits`: The number some digits spell.
* `takeDigits`, `spanDigits`: A fixed number of digits, and all of them.

## Theorems

* `takeDigits_pad`: A padded number that fits is read back.
* `spanDigits_append`: Digits are taken up to what is no digit.
* `readDigits_append_natText`: Leading zeros do not count.
-/

namespace DataCrystal

abbrev Text := List Char

def digit (n : Nat) : Char := Char.ofNat (48 + n)

def digitValue (c : Char) : Option Nat :=
  if 48 ≤ c.toNat ∧ c.toNat ≤ 57 then some (c.toNat - 48) else none

def isDigit (c : Char) : Bool := (digitValue c).isSome

/-- A number as so many digits, the highest first. -/
def pad : Nat → Nat → Text
  | 0, _ => []
  | width + 1, n => pad width (n / 10) ++ [digit (n % 10)]

/-- The number of digits of a number. -/
def numDigits (n : Nat) : Nat := Nat.log 10 n + 1

/-- A number without leading zeros. -/
def natText (n : Nat) : Text := pad (numDigits n) n

def zeros (n : Nat) : Text := List.replicate n (digit 0)

/-- Read one more digit. -/
def readDigit (n : Nat) (c : Char) : Option Nat := (digitValue c).map fun d => n * 10 + d

/-- The number some digits spell; no digits spell zero. -/
def readDigits (cs : Text) : Option Nat := cs.foldlM readDigit 0

/-- The number in the first so many characters, and the rest of the text. -/
def takeDigits (width : Nat) (cs : Text) : Option (Nat × Text) :=
  if cs.length < width then none
  else (readDigits (cs.take width)).map fun n => (n, cs.drop width)

/-- The digits a text starts with, and the rest of it. -/
def spanDigits (cs : Text) : Text × Text := (cs.takeWhile isDigit, cs.dropWhile isDigit)

/-- The text behind a character it starts with. -/
def skip (c : Char) : Text → Option Text
  | [] => none
  | d :: ds => if d = c then some ds else none

section Digits

theorem digitValue_digit {n : Nat} (h : n < 10) : digitValue (digit n) = some n := by
  have hall : ∀ m < 10, digitValue (digit m) = some m := by decide
  exact hall n h

theorem isDigit_digit {n : Nat} (h : n < 10) : isDigit (digit n) = true := by
  rw [isDigit, digitValue_digit h]
  rfl

@[simp]
theorem length_pad (width : Nat) : ∀ n, (pad width n).length = width := by
  induction width with
  | zero => exact fun n => rfl
  | succ width ih =>
      intro n
      rw [pad, List.length_append, ih]
      rfl

theorem isDigit_of_mem_pad (width : Nat) : ∀ n, ∀ c ∈ pad width n, isDigit c = true := by
  induction width with
  | zero => exact fun n c hc => absurd hc List.not_mem_nil
  | succ width ih =>
      intro n c hc
      rw [pad, List.mem_append] at hc
      rcases hc with hc | hc
      · exact ih (n / 10) c hc
      · rw [List.mem_singleton] at hc
        rw [hc]
        exact isDigit_digit (Nat.mod_lt n (by decide))

/-- A number that fits its width is read back, behind what was read before. -/
theorem foldlM_pad (width : Nat) : ∀ m n, n < 10 ^ width →
    (pad width n).foldlM readDigit m = some (m * 10 ^ width + n) := by
  induction width with
  | zero =>
      intro m n hn
      rw [Nat.pow_zero] at hn
      have hzero : n = 0 := by omega
      rw [hzero, Nat.pow_zero, Nat.mul_one]
      rfl
  | succ width ih =>
      intro m n hn
      rw [Nat.pow_succ] at hn
      have hhigh : n / 10 < 10 ^ width := by omega
      rw [pad, List.foldlM_append, ih m (n / 10) hhigh, Option.bind_eq_bind, Option.bind_some,
        List.foldlM_cons, readDigit, digitValue_digit (Nat.mod_lt n (by decide))]
      have hsplit : (m * 10 ^ width + n / 10) * 10 + n % 10 = m * 10 ^ (width + 1) + n := by
        rw [Nat.pow_succ, Nat.add_mul, Nat.mul_assoc]
        omega
      rw [Option.map_some, hsplit]
      rfl

theorem readDigits_pad {width n : Nat} (h : n < 10 ^ width) :
    readDigits (pad width n) = some n := by
  rw [readDigits, foldlM_pad width 0 n h, Nat.zero_mul, Nat.zero_add]

/-- A padded number that fits is read back and the rest is left. -/
theorem takeDigits_pad {width n : Nat} (h : n < 10 ^ width) (rest : Text) :
    takeDigits width (pad width n ++ rest) = some (n, rest) := by
  have hlong : ¬(pad width n ++ rest).length < width := by
    rw [List.length_append, length_pad]
    omega
  rw [takeDigits, if_neg hlong, List.take_left' (length_pad width n),
    List.drop_left' (length_pad width n), readDigits_pad h]
  rfl

@[simp]
theorem skip_cons (c : Char) (cs : Text) : skip c (c :: cs) = some cs := by rw [skip, if_pos rfl]

/-- A text that starts with no digit. -/
def Blunt (cs : Text) : Prop := ∀ c ∈ cs.head?, isDigit c = false

theorem spanDigits_append {ds rest : Text} (hds : ∀ c ∈ ds, isDigit c = true)
    (hrest : Blunt rest) : spanDigits (ds ++ rest) = (ds, rest) := by
  have htake : rest.takeWhile isDigit = [] := by
    cases rest with
    | nil => rfl
    | cons c cs => rw [List.takeWhile_cons_of_neg (by simp [hrest c rfl])]
  have hdrop : rest.dropWhile isDigit = rest := by
    cases rest with
    | nil => rfl
    | cons c cs => rw [List.dropWhile_cons_of_neg (by simp [hrest c rfl])]
  rw [spanDigits, List.takeWhile_append_of_pos hds, List.dropWhile_append_of_pos hds, htake, hdrop,
    List.append_nil]

theorem lt_pow_numDigits (n : Nat) : n < 10 ^ numDigits n :=
  Nat.lt_pow_succ_log_self (by decide) n

@[simp]
theorem length_natText (n : Nat) : (natText n).length = numDigits n := length_pad _ _

theorem isDigit_of_mem_natText (n : Nat) : ∀ c ∈ natText n, isDigit c = true :=
  isDigit_of_mem_pad _ n

theorem isDigit_of_mem_zeros (n : Nat) : ∀ c ∈ zeros n, isDigit c = true := by
  intro c hc
  rw [(List.mem_replicate.mp hc).2]
  rfl

theorem readDigits_natText (n : Nat) : readDigits (natText n) = some n :=
  readDigits_pad (lt_pow_numDigits n)

theorem foldlM_zeros (k : Nat) : (zeros k).foldlM readDigit 0 = some 0 := by
  induction k with
  | zero => rfl
  | succ k ih =>
      rw [zeros, List.replicate_succ, List.foldlM_cons]
      exact ih

/-- Leading zeros do not count. -/
theorem readDigits_append_natText (k n : Nat) : readDigits (zeros k ++ natText n) = some n := by
  rw [readDigits, List.foldlM_append, foldlM_zeros]
  exact readDigits_natText n

end Digits

end DataCrystal
