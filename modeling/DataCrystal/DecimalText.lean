import Mathlib.Algebra.Order.Ring.Rat
import DataCrystal.Lib.Digits

/-!
# Decimals and Their Text

A decimal is a sign, a coefficient and a power of ten, so `1.10` and `1.1` are two
decimals of one value. Its text keeps all three: a point is set into the digits of
the coefficient while the exponent is not positive and the number not too small, and
the rest of the exponent is written behind an `E`.

The reader puts the digits around the point together and takes as many from the
exponent as stand behind the point, so it does not matter where the point stood.

## Main definitions

* `Decimal`: A decimal, an infinity or a NaN.
* `Decimal.str`: The exact text.
* `Decimal.parse`: The decimal of a text.

## Theorems

* `Decimal.parse_str`: The text gives the decimal back, with its sign, digits and
  exponent.
-/

namespace DataCrystal

inductive Decimal
  | finite (negative : Bool) (coefficient : Nat) (exponent : ℤ)
  | infinity (negative : Bool)
  | nan (negative signaling : Bool) (payload : Nat)
  deriving DecidableEq

namespace Decimal

def signText (negative : Bool) : Text := if negative then ['-'] else []

/-- A number with its sign. -/
def intText (i : ℤ) : Text := (if i < 0 then '-' else '+') :: natText i.natAbs

/-- Where the point stands behind the first digit of the coefficient. -/
def dotPlace (coefficient : Nat) (exponent : ℤ) : ℤ :=
  let left := exponent + numDigits coefficient
  if exponent ≤ 0 ∧ -6 < left then left else 1

/-- The digits before the point. -/
def intPart (coefficient : Nat) (dot : ℤ) : Text :=
  if dot ≤ 0 then zeros 1
  else if numDigits coefficient ≤ dot then natText coefficient ++ zeros (dot - numDigits coefficient).toNat
  else (natText coefficient).take dot.toNat

/-- The digits behind it. -/
def fracPart (coefficient : Nat) (dot : ℤ) : Text :=
  if dot ≤ 0 then zeros (-dot).toNat ++ natText coefficient
  else if numDigits coefficient ≤ dot then []
  else (natText coefficient).drop dot.toNat

def pointText (frac : Text) : Text := if frac = [] then [] else '.' :: frac

/-- The exponent that the point does not account for. -/
def expText (exp : ℤ) : Text := if exp = 0 then [] else 'E' :: intText exp

def finiteText (coefficient : Nat) (exponent : ℤ) : Text :=
  let dot := dotPlace coefficient exponent
  intPart coefficient dot ++ (pointText (fracPart coefficient dot) ++
    expText (exponent + numDigits coefficient - dot))

def infinityText : Text := ['I', 'n', 'f', 'i', 'n', 'i', 't', 'y']

def nanText : Text := ['N', 'a', 'N']

/-- The diagnostic digits of a NaN, if there are any. -/
def payloadText (payload : Nat) : Text := if payload = 0 then [] else natText payload

/-- `str(value)`. -/
def str : Decimal → Text
  | .finite negative coefficient exponent => signText negative ++ finiteText coefficient exponent
  | .infinity negative => signText negative ++ infinityText
  | .nan negative signaling payload =>
    signText negative ++ ((if signaling then ['s'] else []) ++ (nanText ++ payloadText payload))

def readSign : Text → Bool × Text
  | [] => (false, [])
  | c :: cs => if c = '-' then (true, cs) else (false, c :: cs)

/-- The digits behind a point, if there is one. -/
def readPoint : Text → Text × Text
  | [] => ([], [])
  | c :: cs => if c = '.' then spanDigits cs else ([], c :: cs)

def readExp : Text → Option ℤ
  | [] => some 0
  | [_] => none
  | e :: sign :: cs =>
    if e = 'E' then
      match readDigits cs with
      -- Any other sign is a plus.
      | some n => some (if sign = '-' then -(n : ℤ) else n)
      | none => none
    else none

def readFinite (negative : Bool) (cs : Text) : Option Decimal :=
  let (int, rest) := spanDigits cs
  let (frac, rest) := readPoint rest
  match readDigits (int ++ frac), readExp rest with
  | some coefficient, some exp => some (.finite negative coefficient (exp - frac.length))
  | _, _ => none

/-- The digits behind `NaN`. -/
def readNan (negative signaling : Bool) (cs : Text) : Option Decimal :=
  if nanText <+: cs then
    (readDigits (cs.drop nanText.length)).map fun payload => .nan negative signaling payload
  else none

/-- `Decimal(text)`. -/
def parse (cs : Text) : Option Decimal :=
  let (negative, cs) := readSign cs
  match cs with
  | [] => none
  | c :: rest =>
    -- The letters of the specials are decided before any digit.
    if c = 'I' then (if cs = infinityText then some (.infinity negative) else none)
    else if c = 'N' then readNan negative false cs
    else if c = 's' then readNan negative true rest
    else readFinite negative cs

section RoundTrip

variable {coefficient : Nat} {exponent : ℤ}

/-- The sign is taken off a text that starts with no minus. -/
theorem readSign_append (negative : Bool) {cs : Text} (h : ∀ c ∈ cs.head?, c ≠ '-') :
    readSign (signText negative ++ cs) = (negative, cs) := by
  cases negative with
  | true => rfl
  | false =>
      rw [signText, if_neg (by decide), List.nil_append]
      cases cs with
      | nil => rfl
      | cons c cs => rw [readSign, if_neg (h c rfl)]

theorem isDigit_intPart (dot : ℤ) : ∀ c ∈ intPart coefficient dot, isDigit c = true := by
  intro c hc
  unfold intPart at hc
  split_ifs at hc
  · exact isDigit_of_mem_zeros 1 c hc
  · rcases List.mem_append.mp hc with hc | hc
    · exact isDigit_of_mem_natText coefficient c hc
    · exact isDigit_of_mem_zeros _ c hc
  · exact isDigit_of_mem_natText coefficient c (List.mem_of_mem_take hc)

theorem isDigit_fracPart (dot : ℤ) : ∀ c ∈ fracPart coefficient dot, isDigit c = true := by
  intro c hc
  unfold fracPart at hc
  split_ifs at hc
  · rcases List.mem_append.mp hc with hc | hc
    · exact isDigit_of_mem_zeros _ c hc
    · exact isDigit_of_mem_natText coefficient c hc
  · exact absurd hc List.not_mem_nil
  · exact isDigit_of_mem_natText coefficient c (List.mem_of_mem_drop hc)

theorem natText_ne_nil (n : Nat) : natText n ≠ [] := by
  intro h
  have hlength := length_natText n
  rw [h, numDigits, List.length_nil] at hlength
  omega

theorem intPart_ne_nil (dot : ℤ) : intPart coefficient dot ≠ [] := by
  unfold intPart
  split_ifs with hneg hlong
  · exact List.cons_ne_nil _ _
  · exact List.append_ne_nil_of_left_ne_nil (natText_ne_nil coefficient) _
  · intro h
    rcases List.take_eq_nil_iff.mp h with h | h
    · omega
    · exact natText_ne_nil coefficient h

theorem blunt_expText (exp : ℤ) : Blunt (expText exp) := by
  intro c hc
  unfold expText at hc
  split_ifs at hc
  · cases hc
  · cases hc
    decide

theorem blunt_pointText (frac : Text) (exp : ℤ) : Blunt (pointText frac ++ expText exp) := by
  by_cases hfrac : frac = []
  · rw [pointText, if_pos hfrac]
    exact blunt_expText exp
  · rw [pointText, if_neg hfrac]
    intro c hc
    cases hc
    decide

/-- The point and the digits behind it are taken off. -/
theorem readPoint_append {frac : Text} (hfrac : ∀ c ∈ frac, isDigit c = true) (exp : ℤ) :
    readPoint (pointText frac ++ expText exp) = (frac, expText exp) := by
  by_cases hnil : frac = []
  · rw [pointText, if_pos hnil, List.nil_append, hnil]
    unfold expText
    split_ifs
    · rfl
    · rw [readPoint, if_neg (by decide)]
  · rw [pointText, if_neg hnil, List.cons_append, readPoint, if_pos rfl]
    exact spanDigits_append hfrac (blunt_expText exp)

theorem readExp_expText (exp : ℤ) : readExp (expText exp) = some exp := by
  unfold expText intText
  split_ifs with hzero hneg
  · rw [hzero]
    rfl
  · have habs : -(exp.natAbs : ℤ) = exp := by omega
    rw [readExp, if_pos rfl, readDigits_natText]
    simp only [if_true, habs]
  · have habs : (exp.natAbs : ℤ) = exp := by omega
    have hplus : '+' ≠ '-' := by decide
    rw [readExp, if_pos rfl, readDigits_natText]
    simp only [if_neg hplus, habs]

/-- The digits around the point are those of the coefficient, and those behind it make
    up for what the exponent lacks. -/
theorem parts_spec : readDigits (intPart coefficient (dotPlace coefficient exponent) ++
      fracPart coefficient (dotPlace coefficient exponent)) = some coefficient ∧
    exponent + numDigits coefficient - dotPlace coefficient exponent -
      (fracPart coefficient (dotPlace coefficient exponent)).length = exponent := by
  have hpos : 0 < numDigits coefficient := by
    unfold numDigits
    omega
  have hdot : dotPlace coefficient exponent = exponent + numDigits coefficient ∧ exponent ≤ 0 ∨
      dotPlace coefficient exponent = 1 := by
    simp only [dotPlace]
    split_ifs with h
    · exact Or.inl ⟨rfl, h.1⟩
    · exact Or.inr rfl
  generalize dotPlace coefficient exponent = dot at hdot ⊢
  unfold intPart fracPart
  by_cases hneg : dot ≤ 0
  · -- The number is less than one: zeros are filled in.
    simp only [if_pos hneg]
    refine ⟨?_, ?_⟩
    · rw [← List.append_assoc]
      have hzeros : zeros 1 ++ zeros (-dot).toNat = zeros (1 + (-dot).toNat) :=
        List.replicate_append_replicate
      rw [hzeros]
      exact readDigits_append_natText _ coefficient
    · rw [List.length_append, length_natText, zeros, List.length_replicate]
      omega
  · by_cases hlong : (numDigits coefficient : ℤ) ≤ dot
    · -- All digits stand before the point, and no zeros behind them.
      simp only [if_neg hneg, if_pos hlong]
      have hnone : (dot - numDigits coefficient).toNat = 0 := by omega
      rw [hnone, List.append_nil, zeros, List.replicate_zero, List.append_nil]
      refine ⟨readDigits_natText coefficient, ?_⟩
      rw [List.length_nil]
      omega
    -- The point is among the digits, so it splits them and no more.
    · simp only [if_neg hneg, if_neg hlong]
      refine ⟨?_, ?_⟩
      · rw [List.take_append_drop]
        exact readDigits_natText coefficient
      · rw [List.length_drop, length_natText]
        omega

theorem readFinite_finiteText (negative : Bool) :
    readFinite negative (finiteText coefficient exponent) =
      some (.finite negative coefficient exponent) := by
  rcases @parts_spec coefficient exponent with ⟨hdigits, hexp⟩
  unfold readFinite finiteText
  rw [spanDigits_append (isDigit_intPart _) (blunt_pointText _ _)]
  simp only [readPoint_append (isDigit_fracPart _), hdigits, readExp_expText, hexp]

theorem readNan_text (negative signaling : Bool) (payload : Nat) :
    readNan negative signaling (nanText ++ payloadText payload) =
      some (.nan negative signaling payload) := by
  have hread : readDigits (payloadText payload) = some payload := by
    unfold payloadText
    split_ifs with hzero
    · rw [hzero]
      rfl
    · exact readDigits_natText payload
  rw [readNan, if_pos (List.prefix_append _ _), List.drop_left' rfl, hread]
  rfl

/-- A text that starts with a digit is read as a finite number. -/
theorem parse_digits {negative : Bool} {cs : Text} {c : Char} (hc : isDigit c = true) :
    parse (signText negative ++ c :: cs) = readFinite negative (c :: cs) := by
  have hnot : ∀ d, isDigit d = false → c ≠ d := by
    intro d hd hcd
    rw [hcd, hd] at hc
    cases hc
  have hsign := @readSign_append negative (c :: cs) (by
    intro d hd
    cases hd
    exact hnot '-' (by decide))
  unfold parse
  rw [hsign]
  simp only [if_neg (hnot 'I' (by decide)), if_neg (hnot 'N' (by decide)),
    if_neg (hnot 's' (by decide))]

/-- The exact text gives the decimal back. -/
theorem parse_str (d : Decimal) : parse d.str = some d := by
  cases d with
  | finite negative coefficient exponent =>
      have hcons : ∃ c cs, finiteText coefficient exponent = c :: cs ∧ isDigit c = true := by
        unfold finiteText
        cases hint : intPart coefficient (dotPlace coefficient exponent) with
        | nil => exact absurd hint (intPart_ne_nil _)
        | cons c cs =>
            have hdigit := isDigit_intPart (dotPlace coefficient exponent) c (by rw [hint]; simp)
            simp only [hint, List.cons_append]
            exact ⟨c, _, rfl, hdigit⟩
      rcases hcons with ⟨c, cs, htext, hc⟩
      rw [str, htext, parse_digits hc, ← htext, readFinite_finiteText]
  | infinity negative => cases negative <;> decide
  | nan negative signaling payload =>
      have hread := readNan_text negative signaling payload
      have hsign := @readSign_append negative
        ((if signaling then ['s'] else []) ++ (nanText ++ payloadText payload)) (by
          intro c hc
          cases signaling <;> cases hc <;> decide)
      rw [str]
      unfold parse
      rw [hsign]
      cases signaling with
      | true => exact hread
      | false => exact hread

end RoundTrip

end Decimal

end DataCrystal
