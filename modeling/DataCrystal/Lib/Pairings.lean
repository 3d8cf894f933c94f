import Mathlib.Data.List.Forall2

/-!
# Pairings of Lists

Two lists are paired by a relation when they are of one length and their elements
are related place by place. Relations that lead from a list to another and on to a
third compose, and what every element can be paired with, the list can.

## Theorems

* `forall₂_comp`: Two pairings one after the other.
* `exists_forall₂_iff`: When a list can be paired.
* `forall₂_through`, `forall₂_across`: Pairings over a third list.
* `forall₂_left`: What pairing says of the elements of one side.
-/

namespace DataCrystal

variable {α β γ : Type} {R : α → β → Prop} {S : β → γ → Prop} {T : α → γ → Prop} {Q : α → Prop}

/-- Two pairings one after the other. -/
theorem forall₂_comp (xs : List α) : ∀ zs : List γ,
    (∃ ys, List.Forall₂ R xs ys ∧ List.Forall₂ S ys zs) ↔
      List.Forall₂ (fun x z => ∃ y, R x y ∧ S y z) xs zs := by
  induction xs with
  | nil =>
      intro zs
      simp
  | cons x xs ih =>
      intro zs
      rw [List.forall₂_cons_left_iff]
      constructor
      · rintro ⟨ys, hxs, hzs⟩
        rcases List.forall₂_cons_left_iff.mp hxs with ⟨y, ys, hy, hys, rfl⟩
        rcases List.forall₂_cons_left_iff.mp hzs with ⟨z, zs, hz, hrest, rfl⟩
        exact ⟨z, zs, ⟨y, hy, hz⟩, (ih zs).mp ⟨ys, hys, hrest⟩, rfl⟩
      · rintro ⟨z, zs, ⟨y, hy, hz⟩, hrest, rfl⟩
        rcases (ih zs).mpr hrest with ⟨ys, hys, hzs⟩
        exact ⟨y :: ys, List.Forall₂.cons hy hys, List.Forall₂.cons hz hzs⟩

/-- A list can be paired when its elements can. -/
theorem exists_forall₂_iff (xs : List α) :
    (∃ ys, List.Forall₂ R xs ys) ↔ ∀ x ∈ xs, ∃ y, R x y := by
  induction xs with
  | nil => simp
  | cons x xs ih =>
      rw [List.forall_mem_cons, ← ih]
      constructor
      · rintro ⟨ys, hys⟩
        rcases List.forall₂_cons_left_iff.mp hys with ⟨y, rest, hy, hrest, -⟩
        exact ⟨⟨y, hy⟩, rest, hrest⟩
      · rintro ⟨⟨y, hy⟩, rest, hrest⟩
        exact ⟨y :: rest, List.Forall₂.cons hy hrest⟩

/-- What holds of an element when its partner leads to something that fits it, holds of
    all elements when the partners together do. -/
theorem forall₂_through {xs : List α} {ys : List β} (h : List.Forall₂ R xs ys)
    (hone : ∀ x ∈ xs, ∀ y, R x y → ((∃ z, S y z ∧ T x z) ↔ Q x)) :
    (∃ zs, List.Forall₂ S ys zs ∧ List.Forall₂ T xs zs) ↔ ∀ x ∈ xs, Q x := by
  induction h with
  | nil => simp
  | cons hxy hrest ih =>
      rw [List.forall_mem_cons, ← hone _ List.mem_cons_self _ hxy,
        ← ih fun x hx => hone x (List.mem_cons_of_mem _ hx)]
      constructor
      · rintro ⟨zs, hS, hT⟩
        rcases List.forall₂_cons_left_iff.mp hS with ⟨z, rest, hz, hS', rfl⟩
        rcases List.forall₂_cons.mp hT with ⟨hz', hT'⟩
        exact ⟨⟨z, hz, hz'⟩, rest, hS', hT'⟩
      · rintro ⟨⟨z, hz, hz'⟩, rest, hS, hT⟩
        exact ⟨z :: rest, List.Forall₂.cons hz hS, List.Forall₂.cons hz' hT⟩

/-- Two lists that are paired with a third are paired with each other. -/
theorem forall₂_across {xs : List α} {ys : List β} (h : List.Forall₂ R xs ys)
    {S : γ → β → Prop} (hone : ∀ x ∈ xs, ∀ y z, R x y → (S z y ↔ T x z)) :
    ∀ zs, List.Forall₂ S zs ys ↔ List.Forall₂ T xs zs := by
  induction h with
  | nil =>
      intro zs
      rw [List.forall₂_nil_left_iff, List.forall₂_nil_right_iff]
  | cons hxy hrest ih =>
      intro zs
      cases zs with
      | nil => exact iff_of_false (fun h => nomatch h) (fun h => nomatch h)
      | cons z zs =>
          rw [List.forall₂_cons, List.forall₂_cons, hone _ List.mem_cons_self _ _ hxy,
            ih (fun x hx => hone x (List.mem_cons_of_mem _ hx)) zs]

/-- What a pairing says of every element of its first list. -/
theorem forall₂_left {xs : List α} {ys : List β} (h : List.Forall₂ R xs ys)
    (hone : ∀ x y, R x y → Q x) : ∀ x ∈ xs, Q x := by
  intro x hx
  rcases (exists_forall₂_iff xs).mp ⟨ys, h⟩ x hx with ⟨y, hy⟩
  exact hone x y hy

end DataCrystal
