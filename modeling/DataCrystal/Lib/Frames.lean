import Mathlib.Algebra.Ring.Nat
import Mathlib.Data.List.Basic

/-!
# Length-Prefixed Frames

A stream of byte strings in one run of bytes: each string behind its length, as
a big-endian number of fixed width. A reader that is told how many bytes of the
run are valid reads the strings back and never looks past them, whatever follows.

## Main definitions

* `packBE`, `unpackBE`: A number as so many bytes, the highest first.
* `frame`, `frames`: A byte string behind its length, and a stream of them.
* `readFrames`: The byte strings in the first so many bytes of a run.

## Theorems

* `unpackBE_packBE`: A number that fits its width is read back.
* `readFrames_frames`: A stream is read back, whatever follows it.
-/

namespace DataCrystal

abbrev Bytes := List UInt8

/-- A number as `width` bytes, the highest first. -/
def packBE : Nat → Nat → Bytes
  | 0, _ => []
  | width + 1, n => packBE width (n / 256) ++ [UInt8.ofNat n]

/-- The number some bytes spell, the highest first. -/
def unpackBE (bs : Bytes) : Nat := bs.foldl (fun n b => n * 256 + b.toNat) 0

/-- The width of a length prefix. -/
def prefixSize : Nat := 8

/-- A byte string behind its length. -/
def frame (raw : Bytes) : Bytes := packBE prefixSize raw.length ++ raw

/-- Byte strings one after the other. -/
def frames (raws : List Bytes) : Bytes := raws.flatMap frame

/-- The byte strings in the first `remaining` bytes of a run. A prefix or a string
    that is cut short ends the reading; `fuel` bounds the number of strings. -/
def readFrames : Nat → Nat → Bytes → List Bytes
  | 0, _, _ => []
  | fuel + 1, remaining, bs =>
    if remaining < prefixSize then []
    -- The count of the bytes promises more than there are.
    else if bs.length < prefixSize then []
    else
      let length := unpackBE (bs.take prefixSize)
      let rest := bs.drop prefixSize
      -- A string that is cut short.
      if rest.length < length then []
      else rest.take length :: readFrames fuel (remaining - (prefixSize + length)) (rest.drop length)

@[simp]
theorem length_packBE (width : Nat) : ∀ n, (packBE width n).length = width := by
  induction width with
  | zero => exact fun n => rfl
  | succ width ih =>
      intro n
      rw [packBE, List.length_append, ih]
      rfl

/-- A number that fits its width is read back. -/
theorem unpackBE_packBE (width : Nat) : ∀ n, n < 256 ^ width → unpackBE (packBE width n) = n := by
  induction width with
  | zero =>
      intro n hn
      rw [Nat.pow_zero] at hn
      have hzero : n = 0 := by omega
      rw [hzero]
      rfl
  | succ width ih =>
      intro n hn
      rw [Nat.pow_succ] at hn
      have hhigh : n / 256 < 256 ^ width := by omega
      have hrun := ih _ hhigh
      unfold unpackBE at hrun ⊢
      rw [packBE, List.foldl_append, hrun]
      -- The last byte is the number's remainder.
      have hlow : (UInt8.ofNat n).toNat = n % 256 := UInt8.toNat_ofNat'
      simp only [List.foldl_cons, List.foldl_nil, hlow]
      omega

/-- The number of a byte string is below that of a longer one. -/
theorem unpackBE_lt (bs : Bytes) : unpackBE bs < 256 ^ bs.length := by
  have hfrom : ∀ (cs : Bytes) (n : Nat),
      cs.foldl (fun n b => n * 256 + b.toNat) n < (n + 1) * 256 ^ cs.length := by
    intro cs
    induction cs with
    | nil =>
        intro n
        rw [List.foldl_nil, List.length_nil, Nat.pow_zero]
        omega
    | cons c cs ih =>
        intro n
        have hbyte : c.toNat < 256 := UInt8.toNat_lt c
        rw [List.foldl_cons, List.length_cons]
        calc cs.foldl (fun n b => n * 256 + b.toNat) (n * 256 + c.toNat)
            < (n * 256 + c.toNat + 1) * 256 ^ cs.length := ih _
          _ ≤ ((n + 1) * 256) * 256 ^ cs.length := Nat.mul_le_mul_right _ (by omega)
          _ = (n + 1) * 256 ^ (cs.length + 1) := by
            rw [Nat.pow_succ, Nat.mul_assoc, Nat.mul_comm 256]
  have hall := hfrom bs 0
  rw [Nat.zero_add, Nat.one_mul] at hall
  exact hall

@[simp]
theorem length_frame (raw : Bytes) : (frame raw).length = prefixSize + raw.length := by
  rw [frame, List.length_append, length_packBE]

theorem frames_cons (raw : Bytes) (raws : List Bytes) :
    frames (raw :: raws) = frame raw ++ frames raws := rfl

theorem frames_append (raws raws' : List Bytes) :
    frames (raws ++ raws') = frames raws ++ frames raws' := List.flatMap_append

theorem readFrames_zero (fuel : Nat) (bs : Bytes) : readFrames fuel 0 bs = [] := by
  cases fuel with
  | zero => rfl
  | succ fuel => rw [readFrames, if_pos (by decide)]

/-- A stream is read back, whatever follows it. -/
theorem readFrames_frames (raws : List Bytes) (after : Bytes)
    (hshort : ∀ raw ∈ raws, raw.length < 256 ^ prefixSize) : ∀ fuel, (frames raws).length ≤ fuel →
      readFrames fuel (frames raws).length (frames raws ++ after) = raws := by
  induction raws with
  | nil => exact fun fuel _ => readFrames_zero fuel _
  | cons raw raws ih =>
      intro fuel hfuel
      rw [frames_cons, List.length_append, length_frame] at hfuel ⊢
      cases fuel with
      | zero =>
          rw [prefixSize] at hfuel
          omega
      | succ fuel =>
          have hraw := hshort raw List.mem_cons_self
          have hsplit : frame raw ++ frames raws ++ after =
              packBE prefixSize raw.length ++ (raw ++ (frames raws ++ after)) := by
            rw [frame]
            simp only [List.append_assoc]
          have hhead : (packBE prefixSize raw.length ++ (raw ++ (frames raws ++ after))).take
              prefixSize = packBE prefixSize raw.length := List.take_left' (length_packBE _ _)
          have htail : (packBE prefixSize raw.length ++ (raw ++ (frames raws ++ after))).drop
              prefixSize = raw ++ (frames raws ++ after) := List.drop_left' (length_packBE _ _)
          have hlong : ¬(packBE prefixSize raw.length ++ (raw ++ (frames raws ++ after))).length <
              prefixSize := by
            rw [List.length_append, length_packBE]
            omega
          have hwhole : ¬(raw ++ (frames raws ++ after)).length < raw.length := by
            rw [List.length_append]
            omega
          rw [hsplit, readFrames, if_neg (by omega), if_neg hlong]
          -- The prefix gives the string's length, so what is left is the rest of the stream.
          simp only [hhead, htail, unpackBE_packBE _ _ hraw]
          rw [if_neg hwhole, List.take_left' rfl, List.drop_left' rfl]
          have hleft : prefixSize + raw.length + (frames raws).length - (prefixSize + raw.length) =
              (frames raws).length := by omega
          have hrest := ih (fun r hr => hshort r (List.mem_cons_of_mem raw hr)) fuel (by
            rw [prefixSize] at hfuel
            omega)
          rw [hleft, hrest]

end DataCrystal
