import Mathlib.Algebra.Ring.Nat
import Mathlib.Algebra.Order.BigOperators.Group.List
import Mathlib.Algebra.Order.Group.Nat
import Mathlib.Logic.Relation

/-!
# Walking a Graph

A breadth first walk with an explicit queue that remembers where it has been by
marks. A node is met every time it comes out of the queue, and the walk goes on
from it unless its mark is set; so of several nodes with one mark only the first
is gone on from. What a node leads to may depend on the marks set by then, since
a walk can change the graph it goes through.

That a walk finds all there is to find needs enough fuel, and that nodes with one
mark lead to the same nodes. Several walks may share their marks; what the marks
of one walk promise to the next is `Closed`. It speaks of successors a node has
under all marks, which is the part of the graph no walk changes.

## Main definitions

* `WalkGraph`: A graph with marks.
* `walk`: The nodes met, in order, and the marks at the end.
* `pending`: What a walk may still have to take out of its queue.
* `Closed`: The marks are closed under going on.

## Theorems

* `mem_walk_marks`: The marks a walk sets are of the nodes it goes on from.
* `walk_meets`: With enough fuel everything queued is met, and everything a node
  the walk went on from leads to.
* `closed_walk`: With enough fuel the marks stay closed, and the queue is marked.
-/

namespace DataCrystal

variable {α τ : Type} [DecidableEq τ]

/-- A graph whose nodes are remembered by marks. What a node leads to is asked
    for with its own mark set. -/
structure WalkGraph (α τ : Type) where
  mark : α → τ
  next : List τ → α → List α

namespace WalkGraph

/-- The nodes a walk meets, each with whether it goes on from it, and the marks
    that are set at the end. -/
def walk (g : WalkGraph α τ) : Nat → List α → List τ → List (α × Bool) × List τ
  | fuel + 1, a :: queue, marked =>
    -- Met before: it is in the list, and the walk does not go on from it.
    if g.mark a ∈ marked then
      let r := g.walk fuel queue marked
      ((a, false) :: r.1, r.2)
    else
      -- First come, first served: what it leads to waits behind the queue.
      let r := g.walk fuel (queue ++ g.next (g.mark a :: marked) a) (g.mark a :: marked)
      ((a, true) :: r.1, r.2)
  | _, _, marked => ([], marked)

/-- The entries in the queue, and those that the nodes without a mark can add. -/
def pending (g : WalkGraph α τ) (width : α → Nat) (nodes queue : List α) (marked : List τ) : Nat :=
  queue.length + (nodes.map fun a => if g.mark a ∈ marked then 0 else width a).sum

/-- Whatever a marked node leads to is marked. -/
def Closed (g : WalkGraph α τ) (base : α → List α) (marked : List τ) : Prop :=
  ∀ a, g.mark a ∈ marked → ∀ b ∈ base a, g.mark b ∈ marked

variable {g : WalkGraph α τ} {width : α → Nat} {base : α → List α} {nodes queue : List α}
  {marked : List τ} {a b : α} {fuel : Nat}

theorem walk_marked (h : g.mark a ∈ marked) : g.walk (fuel + 1) (a :: queue) marked =
    ((a, false) :: (g.walk fuel queue marked).1, (g.walk fuel queue marked).2) := by
  rw [walk, if_pos h]

theorem walk_fresh (h : g.mark a ∉ marked) : g.walk (fuel + 1) (a :: queue) marked =
    ((a, true) ::
      (g.walk fuel (queue ++ g.next (g.mark a :: marked) a) (g.mark a :: marked)).1,
      (g.walk fuel (queue ++ g.next (g.mark a :: marked) a) (g.mark a :: marked)).2) := by
  rw [walk, if_neg h]

theorem walk_nil : g.walk fuel [] marked = ([], marked) := by
  cases fuel <;> rfl

theorem pending_marked :
    g.pending width nodes queue marked + 1 = g.pending width nodes (a :: queue) marked := by
  unfold pending
  rw [List.length_cons]
  omega

/-- Setting a mark takes the successors of its nodes off the account. -/
theorem pending_fresh (h : g.mark a ∉ marked) (hnodes : width a ≠ 0 → a ∈ nodes)
    {found : List α} (hwidth : found.length ≤ width a) :
    g.pending width nodes (queue ++ found) (g.mark a :: marked) + 1 ≤
      g.pending width nodes (a :: queue) marked := by
  have hle : ∀ b : α, (if g.mark b ∈ g.mark a :: marked then 0 else width b) ≤
      if g.mark b ∈ marked then 0 else width b := by
    intro b
    by_cases hb : g.mark b ∈ marked
    · rw [if_pos hb, if_pos (List.mem_cons_of_mem _ hb)]
    · rw [if_neg hb]
      split
      · exact Nat.zero_le _
      · exact le_rfl
  have hsum : (nodes.map fun b => if g.mark b ∈ g.mark a :: marked then 0 else width b).sum +
        width a ≤
      (nodes.map fun b => if g.mark b ∈ marked then 0 else width b).sum := by
    by_cases hnil : width a = 0
    · rw [hnil, Nat.add_zero]
      exact List.sum_le_sum fun b _ => hle b
    · -- the node itself is counted once
      rcases List.append_of_mem (hnodes hnil) with ⟨before, after, hsplit⟩
      have hbefore := List.sum_le_sum (l := before) fun b _ => hle b
      have hafter := List.sum_le_sum (l := after) fun b _ => hle b
      rw [hsplit, List.map_append, List.map_cons, List.sum_append, List.sum_cons, List.map_append,
        List.map_cons, List.sum_append, List.sum_cons, if_pos List.mem_cons_self, if_neg h]
      omega
  unfold pending
  rw [List.length_append, List.length_cons]
  omega

/-- The marks at the end are those at the start and those of the nodes gone on
    from. -/
theorem mem_walk_marks (fuel : Nat) : ∀ (queue : List α) (marked : List τ) (x : τ),
    x ∈ (g.walk fuel queue marked).2 ↔
      x ∈ marked ∨ ∃ a, (a, true) ∈ (g.walk fuel queue marked).1 ∧ g.mark a = x := by
  induction fuel with
  | zero => simp [walk]
  | succ fuel ih =>
      intro queue marked x
      cases queue with
      | nil => simp [walk_nil]
      | cons a queue =>
          by_cases h : g.mark a ∈ marked
          · rw [walk_marked h]
            simp [ih]
          · rw [walk_fresh h]
            simp only [ih, List.mem_cons, Prod.mk.injEq, and_true]
            constructor
            · rintro ((rfl | hx) | ⟨b, hb, hbx⟩)
              · exact Or.inr ⟨a, Or.inl rfl, rfl⟩
              · exact Or.inl hx
              · exact Or.inr ⟨b, Or.inr hb, hbx⟩
            · rintro (hx | ⟨b, rfl | hb, hbx⟩)
              · exact Or.inl (Or.inr hx)
              · exact Or.inl (Or.inl hbx.symm)
              · exact Or.inr ⟨b, hb, hbx⟩

/-- The mark of whatever is met is set. -/
theorem mark_of_met (fuel : Nat) : ∀ (queue : List α) (marked : List τ),
    ∀ m ∈ (g.walk fuel queue marked).1, g.mark m.1 ∈ (g.walk fuel queue marked).2 := by
  induction fuel with
  | zero => exact fun queue marked m hm => absurd hm List.not_mem_nil
  | succ fuel ih =>
      intro queue marked m hm
      cases queue with
      | nil => rw [walk_nil] at hm; exact absurd hm List.not_mem_nil
      | cons a queue =>
          by_cases h : g.mark a ∈ marked
          · rw [walk_marked h, List.mem_cons] at hm
            rw [walk_marked h]
            rcases hm with rfl | hm
            · exact (mem_walk_marks fuel queue marked _).mpr (Or.inl h)
            · exact ih queue marked m hm
          · rw [walk_fresh h, List.mem_cons] at hm
            rw [walk_fresh h]
            rcases hm with rfl | hm
            · exact (mem_walk_marks fuel _ _ _).mpr (Or.inl List.mem_cons_self)
            · exact ih _ _ m hm

/-- With enough fuel everything in the queue is met, and everything that a node
    the walk went on from leads to. -/
theorem walk_meets (hwidth : ∀ marks a, (g.next marks a).length ≤ width a)
    (hnodes : ∀ a, width a ≠ 0 → a ∈ nodes) (hbase : ∀ marks a, ∀ b ∈ base a, b ∈ g.next marks a)
    (fuel : Nat) : ∀ (queue : List α) (marked : List τ),
      g.pending width nodes queue marked ≤ fuel →
      (∀ a ∈ queue, ∃ on, (a, on) ∈ (g.walk fuel queue marked).1) ∧
      ∀ a, (a, true) ∈ (g.walk fuel queue marked).1 → ∀ b ∈ base a,
        ∃ on, (b, on) ∈ (g.walk fuel queue marked).1 := by
  -- By the fuel: a marked object costs one entry of the queue, a fresh one adds its targets, and
  -- the bound on what is pending pays for both.
  induction fuel with
  | zero =>
      intro queue marked hfuel
      have hnil : queue = [] := by
        unfold pending at hfuel
        exact List.length_eq_zero_iff.mp (by omega)
      rw [hnil]
      exact ⟨fun a ha => absurd ha List.not_mem_nil, fun a ha => absurd ha List.not_mem_nil⟩
  | succ fuel ih =>
      intro queue marked hfuel
      cases queue with
      | nil =>
          rw [walk_nil]
          exact ⟨fun a ha => absurd ha List.not_mem_nil, fun a ha => absurd ha List.not_mem_nil⟩
      | cons a queue =>
          by_cases h : g.mark a ∈ marked
          · rw [walk_marked h]
            have hmark := (pending_marked : g.pending width nodes queue marked + 1 = _).trans_le hfuel
            rcases ih queue marked (Nat.le_of_succ_le_succ hmark) with ⟨hqueue, hnext⟩
            refine ⟨fun c hc => ?_, fun c hc d hd => ?_⟩
            · rcases List.mem_cons.mp hc with rfl | hc
              · exact ⟨false, List.mem_cons_self⟩
              · rcases hqueue c hc with ⟨on, hon⟩
                exact ⟨on, List.mem_cons_of_mem _ hon⟩
            · rcases List.mem_cons.mp hc with heq | hc
              · cases heq
              · rcases hnext c hc d hd with ⟨on, hon⟩
                exact ⟨on, List.mem_cons_of_mem _ hon⟩
          · rw [walk_fresh h]
            have hfresh := (pending_fresh h (hnodes a) (hwidth (g.mark a :: marked) a)).trans hfuel
            rcases ih (queue ++ g.next (g.mark a :: marked) a) (g.mark a :: marked)
              (Nat.le_of_succ_le_succ hfresh) with ⟨hqueue, hnext⟩
            refine ⟨fun c hc => ?_, fun c hc d hd => ?_⟩
            · rcases List.mem_cons.mp hc with rfl | hc
              · exact ⟨true, List.mem_cons_self⟩
              · rcases hqueue c (List.mem_append_left _ hc) with ⟨on, hon⟩
                exact ⟨on, List.mem_cons_of_mem _ hon⟩
            · rcases List.mem_cons.mp hc with heq | hc
              · cases heq
                rcases hqueue d (List.mem_append_right _ (hbase _ _ d hd)) with ⟨on, hon⟩
                exact ⟨on, List.mem_cons_of_mem _ hon⟩
              · rcases hnext c hc d hd with ⟨on, hon⟩
                exact ⟨on, List.mem_cons_of_mem _ hon⟩

/-- Where a mark tells what its nodes lead to, a walk with enough fuel keeps the
    marks closed and marks its queue. -/
theorem closed_walk (hwidth : ∀ marks a, (g.next marks a).length ≤ width a)
    (hnodes : ∀ a, width a ≠ 0 → a ∈ nodes) (hbase : ∀ marks a, ∀ b ∈ base a, b ∈ g.next marks a)
    (hmark : ∀ a b, g.mark a = g.mark b → base a = base b)
    (hfuel : g.pending width nodes queue marked ≤ fuel) (h : g.Closed base marked) :
    g.Closed base (g.walk fuel queue marked).2 ∧
      ∀ a ∈ queue, g.mark a ∈ (g.walk fuel queue marked).2 := by
  rcases walk_meets hwidth hnodes hbase fuel queue marked hfuel with ⟨hqueue, hnext⟩
  refine ⟨fun a ha b hb => ?_, fun a ha => ?_⟩
  · rcases (mem_walk_marks fuel queue marked _).mp ha with ha | ⟨c, hc, hca⟩
    · exact (mem_walk_marks fuel queue marked _).mpr (Or.inl (h a ha b hb))
    · -- the node that set the mark leads to the same nodes
      rw [hmark a c hca.symm] at hb
      rcases hnext c hc b hb with ⟨on, hon⟩
      exact mark_of_met fuel queue marked _ hon
  · rcases hqueue a ha with ⟨on, hon⟩
    exact mark_of_met fuel queue marked _ hon

end WalkGraph

end DataCrystal
