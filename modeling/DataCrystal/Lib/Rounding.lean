import Mathlib.Data.Nat.Log
import Mathlib.Tactic.Ring

/-!
# Rounding to So Many Bits

A number too long for so many bits loses its lowest ones. It goes to the nearest
number that is not too long, and from the middle to the one whose last bit is
zero. This is how an integer becomes a binary floating-point number.

A number is kept as it is when the bits it would lose are zero, and in no other
case.

## Main definitions

* `surplusBits`: How many of its bits a number loses.
* `roundBits`: The number that is left.

## Theorems

* `roundBits_eq_iff`: The numbers that are kept.
* `roundBits_of_lt`: Short numbers are.
-/

namespace DataCrystal

/-- How many bits of a number are too many. -/
def surplusBits (bits n : Nat) : Nat := n.log2 + 1 - bits

/-- The nearest number with so many significant bits, the even one from the middle. -/
def roundBits (bits n : Nat) : Nat :=
  let unit := 2 ^ surplusBits bits n
  let kept := n / unit
  let lost := n % unit
  if unit < 2 * lost ∨ (2 * lost = unit ∧ kept % 2 = 1) then (kept + 1) * unit else kept * unit

/-- The result has none of the bits that are too many. -/
theorem dvd_roundBits (bits n : Nat) : 2 ^ surplusBits bits n ∣ roundBits bits n := by
  unfold roundBits
  dsimp only
  split
  · exact Nat.dvd_mul_left _ _
  · exact Nat.dvd_mul_left _ _

/-- A number is kept when the bits it would lose are zero, and in no other case. -/
theorem roundBits_eq_iff (bits n : Nat) :
    roundBits bits n = n ↔ 2 ^ surplusBits bits n ∣ n := by
  constructor
  · intro h
    have hdvd := dvd_roundBits bits n
    rw [h] at hdvd
    exact hdvd
  · intro h
    have hpos : 0 < 2 ^ surplusBits bits n := Nat.two_pow_pos _
    have hlost : n % 2 ^ surplusBits bits n = 0 := Nat.mod_eq_zero_of_dvd h
    unfold roundBits
    dsimp only
    rw [hlost, if_neg (by omega)]
    exact Nat.div_mul_cancel h

/-- A number with no more bits than there may be is kept. -/
theorem roundBits_of_lt {bits n : Nat} (h : n < 2 ^ bits) : roundBits bits n = n := by
  rw [roundBits_eq_iff]
  by_cases hzero : n = 0
  · rw [hzero]
    exact Nat.dvd_zero _
  · have hlog : n.log2 < bits := (Nat.log2_lt hzero).mpr h
    have hnone : surplusBits bits n = 0 := by
      unfold surplusBits
      omega
    rw [hnone]
    exact Nat.one_dvd n

example : roundBits 53 (2 ^ 53 + 3) = 2 ^ 53 + 4 := by decide

end DataCrystal
