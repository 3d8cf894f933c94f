import Mathlib.Data.List.Basic

/-!
# Slices

`range(0, len(xs), k)` with `xs[i:i + k]`: a list in portions of one size.

## Main definitions

* `slices`: The portions.

## Theorems

* `mem_slices`: Every element is in a portion.
-/

namespace DataCrystal

variable {α : Type}

/-- The portions of a list, of `k` elements each. -/
def slices (k : Nat) (xs : List α) : List (List α) :=
  ((List.range xs.length).filter fun i => i % k = 0).map fun i => (xs.drop i).take k

/-- Nothing is lost and nothing is added. -/
theorem mem_slices {k : Nat} (hk : 0 < k) (xs : List α) (x : α) :
    x ∈ (slices k xs).flatten ↔ x ∈ xs := by
  simp only [slices, List.mem_flatten, List.mem_map, List.mem_filter, List.mem_range,
    decide_eq_true_eq]
  constructor
  · rintro ⟨_, ⟨i, -, rfl⟩, hx⟩
    exact List.mem_of_mem_drop (List.mem_of_mem_take hx)
  · intro hx
    rcases List.getElem_of_mem hx with ⟨j, hj, hget⟩
    -- The portion of the element starts at the multiple of `k` below its place.
    have hle : j / k * k ≤ j := Nat.div_mul_le_self j k
    have hlt : j - j / k * k < k := by
      have := Nat.mod_lt j hk
      rw [Nat.mod_eq_sub_div_mul] at this
      exact this
    refine ⟨_, ⟨j / k * k, ⟨by omega, Nat.mul_mod_left _ _⟩, rfl⟩, ?_⟩
    refine List.mem_iff_getElem.mpr ⟨j - j / k * k, ?_, ?_⟩
    · rw [List.length_take, List.length_drop]
      omega
    · rw [List.getElem_take, List.getElem_drop, ← hget]
      congr 1
      omega

theorem slices_nil (k : Nat) : slices k ([] : List α) = [] := rfl

end DataCrystal
