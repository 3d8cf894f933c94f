import Mathlib.Data.List.Sort
import Mathlib.Data.List.Pairwise
import Mathlib.Data.Finset.Basic

/-!
# Bisection over a Sorted Run

Binary search and sorted insertion, with a comparison that may refuse its
arguments. The comparison answers in `Except`, so a run of values that are
not mutually orderable makes the search raise where it meets the offending
pair, and a search over comparable values never does.

`bisect` is the loop both searches share. It knows nothing of an order: it is
handed a test that says whether the insertion point lies to the right of an
element, and `bisect_eq` says that a test which holds exactly on the first `n`
elements makes the loop return `n`. Left and right bisection differ only in
the test, so each of their specifications is `bisect_eq` at a split of the
run, and the split is what sortedness provides.

`OrderedOn` collects what a comparison has to satisfy on the values at hand.
It is relative to a predicate because no comparison of the values of a dynamic
language is total: what is total is its restriction to the values of one field.

## Main definitions

* `OrderedOn`: A comparison is a strict total order on a set of values.
* `Ascending`: A run is strictly ascending.
* `bisect`: The halving loop.
* `bisectLeft`: The first position not below a value.
* `bisectRight`: The first position above a value.
* `insort`: Inserting a value to the right of its equals.
* `sortedRun`: Sorting by repeated insertion.

## Theorems

* `OrderedOn.of_linear`: Values compared as the elements of a linear order.
* `bisect_eq`: The loop finds the split its test describes.
* `bisectLeft_spec`: Left bisection separates the smaller elements.
* `bisectRight_spec`: Right bisection separates the elements not above.
* `insort_spec`: Insertion keeps the run ascending and adds one element.
* `sortedRun_spec`: Sorting distinct comparable values gives an ascending run.
* `ascending_ext`: An ascending run is determined by its elements.
* `insort_answers`, `sortedRun_answers`: Values that compare never raise.
* `bisect_stays`, `bisect_ends`: A test that only ever answers one way.
* `bisect_refuses`: A value that compares with nothing raises.
* `insort_ok`: What an insertion that answers has compared and added.
-/

namespace DataCrystal

variable {α ε : Type}

/-- On the values satisfying `S`, the comparison always answers and is a
    strict total order. -/
structure OrderedOn (lt : α → α → Except ε Bool) (S : α → Prop) : Prop where
  answers : ∀ a b, S a → S b → lt a b = .ok true ∨ lt a b = .ok false
  irrefl : ∀ a, S a → lt a a = .ok false
  trans : ∀ a b c, S a → S b → S c → lt a b = .ok true → lt b c = .ok true →
    lt a c = .ok true
  tri : ∀ a b, S a → S b → lt a b = .ok false → lt b a = .ok false → a = b

/-- A run is strictly ascending. -/
def Ascending (lt : α → α → Except ε Bool) (xs : List α) : Prop :=
  xs.Pairwise fun a b => lt a b = .ok true

namespace OrderedOn

variable {lt : α → α → Except ε Bool} {S T : α → Prop}

/-- A comparison that agrees with a strict total order on the values is one. -/
theorem congr {lt' : α → α → Except ε Bool} (h : OrderedOn lt S)
    (heq : ∀ a b, S a → S b → lt' a b = lt a b) : OrderedOn lt' S where
  answers a b ha hb := by
    rw [heq a b ha hb]
    exact h.answers a b ha hb
  irrefl a ha := by
    rw [heq a a ha ha]
    exact h.irrefl a ha
  trans a b c ha hb hc := by
    rw [heq a b ha hb, heq b c hb hc, heq a c ha hc]
    exact h.trans a b c ha hb hc
  tri a b ha hb := by
    rw [heq a b ha hb, heq b a hb ha]
    exact h.tri a b ha hb

/-- Values that stand for the elements of a linear order, and are compared as these. -/
theorem of_linear {β : Type} [LinearOrder β] (g : β → α) (hg : ∀ a, S a → ∃ x, a = g x)
    (hlt : ∀ x y, lt (g x) (g y) = .ok (decide (x < y))) : OrderedOn lt S where
  answers a b ha hb := by
    rcases hg a ha with ⟨x, rfl⟩
    rcases hg b hb with ⟨y, rfl⟩
    rw [hlt, Except.ok.injEq, Except.ok.injEq]
    exact Bool.eq_false_or_eq_true _
  irrefl a ha := by
    rcases hg a ha with ⟨x, rfl⟩
    rw [hlt, decide_eq_false (lt_irrefl x)]
  trans a b c ha hb hc hab hbc := by
    rcases hg a ha with ⟨x, rfl⟩
    rcases hg b hb with ⟨y, rfl⟩
    rcases hg c hc with ⟨z, rfl⟩
    rw [hlt, Except.ok.injEq, decide_eq_true_eq] at hab hbc ⊢
    exact hab.trans hbc
  tri a b ha hb hab hba := by
    rcases hg a ha with ⟨x, rfl⟩
    rcases hg b hb with ⟨y, rfl⟩
    rw [hlt, Except.ok.injEq, decide_eq_false_iff_not, not_lt] at hab hba
    rw [le_antisymm hba hab]

theorem asymm (h : OrderedOn lt S) {a b : α} (ha : S a) (hb : S b)
    (hab : lt a b = .ok true) : lt b a = .ok false := by
  rcases h.answers b a hb ha with hba | hba
  · have haa := h.trans a b a ha hb ha hab hba
    rw [h.irrefl a ha] at haa
    simp at haa
  · exact hba

theorem ne_of_lt (h : OrderedOn lt S) {a b : α} (ha : S a) (hab : lt a b = .ok true) :
    a ≠ b := by
  rintro rfl
  rw [h.irrefl a ha] at hab
  simp at hab

/-- What is not below a value but differs from it is above it. -/
theorem lt_of_not_lt (h : OrderedOn lt S) {a b : α} (ha : S a) (hb : S b) (hne : a ≠ b)
    (hab : lt a b = .ok false) : lt b a = .ok true := by
  rcases h.answers b a hb ha with hba | hba
  · exact hba
  · exact absurd (h.tri a b ha hb hab hba) hne

end OrderedOn

/-- A run is ascending under any comparison that agrees on its elements. -/
theorem ascending_congr {lt lt' : α → α → Except ε Bool} {xs : List α}
    (heq : ∀ a ∈ xs, ∀ b ∈ xs, lt a b = lt' a b) : Ascending lt xs ↔ Ascending lt' xs := by
  constructor
  · refine List.Pairwise.imp_of_mem ?_
    intro a b ha hb hab
    rw [← heq a ha b hb]
    exact hab
  · refine List.Pairwise.imp_of_mem ?_
    intro a b ha hb hab
    rw [heq a ha b hb]
    exact hab

/-- The halving loop. `right a` says the insertion point lies to the right of
    `a`; the fuel bounds the number of halvings. -/
def bisect (right : α → Except ε Bool) (xs : List α) : Nat → Nat → Nat → Except ε Nat
  | 0, lo, _ => .ok lo
  | fuel + 1, lo, hi =>
    if lo < hi then
      match xs[(lo + hi) / 2]? with
      -- No element there: the bounds of the caller were wrong.
      | none => .ok lo
      | some a =>
        match right a with
        | .error e => .error e
        | .ok true => bisect right xs fuel ((lo + hi) / 2 + 1) hi
        | .ok false => bisect right xs fuel lo ((lo + hi) / 2)
    else .ok lo

/-- The first position whose element is not below `x`. -/
def bisectLeft (lt : α → α → Except ε Bool) (xs : List α) (x : α) : Except ε Nat :=
  bisect (fun a => lt a x) xs xs.length 0 xs.length

/-- The first position whose element is above `x`. -/
def bisectRight (lt : α → α → Except ε Bool) (xs : List α) (x : α) : Except ε Nat :=
  bisect (fun a => (lt x a).map not) xs xs.length 0 xs.length

/-- Insert `x` to the right of its equals. -/
def insort (lt : α → α → Except ε Bool) (xs : List α) (x : α) : Except ε (List α) :=
  (bisectRight lt xs x).map fun i => xs.take i ++ x :: xs.drop i

/-- Sort by inserting the values one after the other. -/
def sortedRun (lt : α → α → Except ε Bool) (xs : List α) : Except ε (List α) :=
  xs.foldlM (insort lt) []

/-- The loop finds the split its test describes: if the test holds exactly on
    the first `n` elements, then `n` is returned. -/
theorem bisect_eq (right : α → Except ε Bool) (xs : List α) (n : Nat)
    (htest : ∀ i (h : i < xs.length), right xs[i] = .ok (decide (i < n))) :
    ∀ (fuel lo hi : Nat), hi - lo ≤ fuel → lo ≤ n → n ≤ hi → hi ≤ xs.length →
      bisect right xs fuel lo hi = .ok n := by
  intro fuel
  induction fuel with
  | zero =>
      intro lo hi hfuel hlo hhi _
      have hn : lo = n := by omega
      rw [bisect, hn]
  | succ fuel ih =>
      intro lo hi hfuel hlo hhi hlen
      rw [bisect]
      by_cases hlt : lo < hi
      · have hmid : (lo + hi) / 2 < xs.length := by omega
        rw [if_pos hlt, List.getElem?_eq_getElem hmid]
        simp only [htest _ hmid]
        -- The midpoint is on one side of the split; the half kept contains it.
        by_cases hside : (lo + hi) / 2 < n
        · simp only [hside, decide_true]
          exact ih _ _ (by omega) (by omega) hhi hlen
        · simp only [hside, decide_false]
          exact ih _ _ (by omega) hlo (by omega) (by omega)
      · rw [if_neg hlt]
        have hn : lo = n := by omega
        rw [hn]

/-- A test that never says right, if it answers at all, leaves the search where
    it began. -/
theorem bisect_stays {right : α → Except ε Bool} {xs : List α}
    (hno : ∀ a ∈ xs, right a ≠ .ok true) :
    ∀ {fuel lo hi n : Nat}, bisect right xs fuel lo hi = .ok n → n = lo := by
  intro fuel
  induction fuel with
  | zero =>
      intro lo hi n h
      exact (Except.ok.inj h).symm
  | succ fuel ih =>
      intro lo hi n h
      rw [bisect] at h
      by_cases hlt : lo < hi
      · rw [if_pos hlt] at h
        cases hget : xs[(lo + hi) / 2]? with
        | none =>
            rw [hget] at h
            exact (Except.ok.inj h).symm
        | some a =>
            simp only [hget] at h
            cases hright : right a with
            | error e => simp [hright] at h
            | ok b =>
                cases b with
                | true => exact absurd hright (hno a (List.mem_of_getElem? hget))
                | false =>
                    rw [hright] at h
                    exact ih h
      · rw [if_neg hlt] at h
        exact (Except.ok.inj h).symm

/-- A test that never says left, if it answers at all, takes the search to the
    end. -/
theorem bisect_ends {right : α → Except ε Bool} {xs : List α}
    (hno : ∀ a ∈ xs, right a ≠ .ok false) :
    ∀ {fuel lo hi n : Nat}, hi - lo ≤ fuel → lo ≤ hi → hi ≤ xs.length →
      bisect right xs fuel lo hi = .ok n → n = hi := by
  intro fuel
  induction fuel with
  | zero =>
      intro lo hi n hfuel hle _ h
      have hn := Except.ok.inj h
      omega
  | succ fuel ih =>
      intro lo hi n hfuel hle hlen h
      rw [bisect] at h
      by_cases hlt : lo < hi
      · have hmid : (lo + hi) / 2 < xs.length := by omega
        rw [if_pos hlt, List.getElem?_eq_getElem hmid] at h
        simp only at h
        cases hright : right xs[(lo + hi) / 2] with
        | error e => simp [hright] at h
        | ok b =>
            cases b with
            | false => exact absurd hright (hno _ (List.getElem_mem hmid))
            | true =>
                rw [hright] at h
                exact ih (by omega) (by omega) hlen h
      · rw [if_neg hlt] at h
        have hn := Except.ok.inj h
        omega

/-- A test that is downward closed along the run holds on a prefix of it. -/
theorem exists_split (p : α → Bool) (xs : List α)
    (hdown : xs.Pairwise fun a b => p b = true → p a = true) :
    ∃ n, n ≤ xs.length ∧ ∀ i (h : i < xs.length), p xs[i] = decide (i < n) := by
  induction xs with
  | nil => exact ⟨0, le_refl _, fun i h => absurd h (Nat.not_lt_zero i)⟩
  | cons a xs ih =>
      rw [List.pairwise_cons] at hdown
      rcases ih hdown.2 with ⟨n, hn, hsplit⟩
      cases hpa : p a with
      | true =>
          refine ⟨n + 1, by simpa using hn, fun i h => ?_⟩
          cases i with
          | zero => simp [hpa]
          | succ i => simpa using hsplit i (by simpa using h)
      | false =>
          -- Nothing after a failing element can pass.
          refine ⟨0, Nat.zero_le _, fun i h => ?_⟩
          cases i with
          | zero => simp [hpa]
          | succ i =>
              have hi : i < xs.length := by simpa using h
              have hno : p xs[i] ≠ true := fun hp => by
                have hpa' := hdown.1 xs[i] (List.getElem_mem hi) hp
                rw [hpa] at hpa'
                simp at hpa'
              simpa using hno

/-- Bisection by a test that answers on every element and is downward closed
    along the run splits the run where the answer changes. -/
theorem bisect_spec (right : α → Except ε Bool) (xs : List α)
    (hans : ∀ a ∈ xs, right a = .ok true ∨ right a = .ok false)
    (hdown : xs.Pairwise fun a b => right b = .ok true → right a = .ok true) :
    ∃ n, bisect right xs xs.length 0 xs.length = .ok n ∧
      (∀ a ∈ xs.take n, right a = .ok true) ∧ (∀ a ∈ xs.drop n, right a = .ok false) := by
  -- The test as a plain predicate; a refusal never happens on the run.
  let p : α → Bool := fun a => match right a with
    | .ok b => b
    | .error _ => false
  have hp : ∀ a ∈ xs, right a = .ok (p a) := by
    intro a ha
    rcases hans a ha with h | h <;> simp only [p, h]
  have hpdown : xs.Pairwise fun a b => p b = true → p a = true := by
    refine List.Pairwise.imp_of_mem ?_ hdown
    intro a b ha hb hab hpb
    have hright := hab (by rw [hp b hb, hpb])
    rw [hp a ha] at hright
    exact Except.ok.inj hright
  rcases exists_split p xs hpdown with ⟨n, hn, hsplit⟩
  refine ⟨n, bisect_eq right xs n (fun i h => ?_) _ _ _ (by omega) (Nat.zero_le n) hn
    (le_refl _), fun a ha => ?_, fun a ha => ?_⟩
  · rw [hp _ (List.getElem_mem h), hsplit i h]
  · rcases List.mem_take_iff_getElem.mp ha with ⟨i, hi, rfl⟩
    rw [hp _ (List.getElem_mem _), hsplit i (by omega)]
    simp only [Except.ok.injEq, decide_eq_true_eq]
    omega
  · rcases List.mem_drop_iff_getElem.mp ha with ⟨i, hi, rfl⟩
    rw [hp _ (List.getElem_mem _), hsplit (n + i) (by omega)]
    simp

section Answering

variable {lt : α → α → Except ε Bool} {xs : List α} {x : α}

/-- Bisection by a test that answers on every element answers. -/
theorem bisect_answers (right : α → Except ε Bool) (xs : List α)
    (hans : ∀ a ∈ xs, ∃ b, right a = .ok b) :
    ∀ fuel lo hi : Nat, ∃ n, bisect right xs fuel lo hi = .ok n := by
  intro fuel
  induction fuel with
  | zero => exact fun lo hi => ⟨lo, rfl⟩
  | succ fuel ih =>
      intro lo hi
      rw [bisect]
      split
      · cases hget : xs[(lo + hi) / 2]? with
        | none => exact ⟨lo, rfl⟩
        | some a =>
            rcases hans a (List.mem_of_getElem? hget) with ⟨b, hb⟩
            cases b with
            | true => simpa only [hb] using ih _ _
            | false => simpa only [hb] using ih _ _
      · exact ⟨lo, rfl⟩

/-- Bisection of something by a test that never answers raises: its first
    halving asks. -/
theorem bisect_refuses (right : α → Except ε Bool) (xs : List α) (hne : xs ≠ [])
    (hans : ∀ a ∈ xs, ∃ e, right a = .error e) :
    ∃ e, bisect right xs xs.length 0 xs.length = .error e := by
  cases hlen : xs.length with
  | zero => exact absurd (List.length_eq_zero_iff.mp hlen) hne
  | succ fuel =>
      have hlt : (0 + (fuel + 1)) / 2 < xs.length := by omega
      rcases hans _ (List.getElem_mem hlt) with ⟨e, he⟩
      refine ⟨e, ?_⟩
      rw [bisect, if_pos (by omega), List.getElem?_eq_getElem hlt]
      simp only [he]

/-- Inserting a value that compares with every element adds at most that
    value, whether or not the run is sorted. -/
theorem insort_answers (hans : ∀ a ∈ xs, ∃ b, lt x a = .ok b) :
    ∃ ys, insort lt xs x = .ok ys ∧ ∀ a ∈ ys, a = x ∨ a ∈ xs := by
  have htest : ∀ a ∈ xs, ∃ b, (lt x a).map not = .ok b := by
    intro a ha
    rcases hans a ha with ⟨b, hb⟩
    exact ⟨!b, by rw [hb, Except.map]⟩
  rcases bisect_answers _ xs htest xs.length 0 xs.length with ⟨n, hn⟩
  refine ⟨xs.take n ++ x :: xs.drop n, by rw [insort, bisectRight, hn, Except.map], fun a ha => ?_⟩
  rw [List.mem_append, List.mem_cons] at ha
  rcases ha with ha | ha | ha
  · exact Or.inr (List.mem_of_mem_take ha)
  · exact Or.inl ha
  · exact Or.inr (List.mem_of_mem_drop ha)

/-- An insertion that answers has compared with something, unless the run was
    empty, and adds exactly the value. -/
theorem insort_ok {ys : List α} (h : insort lt xs x = .ok ys) :
    (xs = [] ∨ ∃ a ∈ xs, ∃ b, lt x a = .ok b) ∧ ∀ a, a ∈ ys ↔ a = x ∨ a ∈ xs := by
  constructor
  · by_contra hno
    rw [not_or] at hno
    have hall : ∀ a ∈ xs, ∃ e, (lt x a).map not = .error e := by
      intro a ha
      cases hlt : lt x a with
      | ok b => exact absurd ⟨a, ha, b, hlt⟩ hno.2
      | error e => exact ⟨e, rfl⟩
    rcases bisect_refuses _ xs hno.1 hall with ⟨e, he⟩
    rw [insort, bisectRight, he] at h
    cases h
  · intro a
    rw [insort] at h
    cases hn : bisectRight lt xs x with
    | error e =>
        rw [hn] at h
        cases h
    | ok n =>
        rw [hn] at h
        have hys : xs.take n ++ x :: xs.drop n = ys := Except.ok.inj h
        conv_rhs => rw [← List.take_append_drop n xs]
        rw [← hys]
        simp only [List.mem_append, List.mem_cons]
        tauto

/-- Sorting values that compare pairwise answers. -/
theorem sortedRun_answers (hans : ∀ a ∈ xs, ∀ b ∈ xs, ∃ r, lt a b = .ok r) :
    ∃ ys, sortedRun lt xs = .ok ys ∧ ∀ a ∈ ys, a ∈ xs := by
  have hloop : ∀ ys zs : List α, (∀ a ∈ ys, a ∈ xs) → (∀ a ∈ zs, a ∈ xs) →
      ∃ run, ys.foldlM (insort lt) zs = .ok run ∧ ∀ a ∈ run, a ∈ xs := by
    intro ys
    induction ys with
    | nil => exact fun zs _ hzs => ⟨zs, rfl, hzs⟩
    | cons y ys ih =>
        intro zs hys hzs
        rcases insort_answers (fun a ha => hans y (hys y List.mem_cons_self) a (hzs a ha)) with
          ⟨zs', hins, hmem⟩
        rcases ih zs' (fun a ha => hys a (List.mem_cons_of_mem y ha)) (fun a ha =>
          (hmem a ha).elim (fun h => h ▸ hys y List.mem_cons_self) (hzs a)) with ⟨run, hrun, hin⟩
        refine ⟨run, ?_, hin⟩
        rw [List.foldlM_cons, hins]
        exact hrun
  exact hloop xs [] (fun a ha => ha) (fun a ha => absurd ha List.not_mem_nil)

end Answering

section Ordered

variable {lt : α → α → Except ε Bool} {S : α → Prop} {xs : List α} {x : α}

/-- Left bisection separates the elements below `x` from the others. -/
theorem bisectLeft_spec (hord : OrderedOn lt S) (hxs : ∀ a ∈ xs, S a) (hx : S x)
    (hasc : Ascending lt xs) :
    ∃ n, bisectLeft lt xs x = .ok n ∧ (∀ a ∈ xs.take n, lt a x = .ok true) ∧
      (∀ a ∈ xs.drop n, lt a x = .ok false) := by
  refine bisect_spec _ xs (fun a ha => hord.answers a x (hxs a ha) hx) ?_
  refine List.Pairwise.imp_of_mem ?_ hasc
  intro a b ha hb hab hbx
  exact hord.trans a b x (hxs a ha) (hxs b hb) hx hab hbx

/-- Right bisection separates the elements not above `x` from those above. -/
theorem bisectRight_spec (hord : OrderedOn lt S) (hxs : ∀ a ∈ xs, S a) (hx : S x)
    (hasc : Ascending lt xs) :
    ∃ n, bisectRight lt xs x = .ok n ∧ (∀ a ∈ xs.take n, lt x a = .ok false) ∧
      (∀ a ∈ xs.drop n, lt x a = .ok true) := by
  have hflip : ∀ a, S a → ∀ b, (lt x a).map not = .ok b ↔ lt x a = .ok !b := by
    intro a ha b
    rcases hord.answers x a hx ha with h | h <;> cases b <;> simp [h, Except.map]
  have hdown : xs.Pairwise fun a b =>
      (lt x b).map not = .ok true → (lt x a).map not = .ok true := by
    refine List.Pairwise.imp_of_mem ?_ hasc
    intro a b ha hb hab
    rw [hflip a (hxs a ha), hflip b (hxs b hb)]
    intro hxb
    rcases hord.answers x a hx (hxs a ha) with hxa | hxa
    · rw [hord.trans x a b hx (hxs a ha) (hxs b hb) hxa hab] at hxb
      simp at hxb
    · exact hxa
  have hans : ∀ a ∈ xs, (lt x a).map not = .ok true ∨ (lt x a).map not = .ok false := by
    intro a ha
    rcases hord.answers x a hx (hxs a ha) with h | h <;> simp [h, Except.map]
  rcases bisect_spec _ xs hans hdown with ⟨n, hn, htake, hdrop⟩
  refine ⟨n, hn, fun a ha => ?_, fun a ha => ?_⟩
  · exact (hflip a (hxs a (List.mem_of_mem_take ha)) true).mp (htake a ha)
  · exact (hflip a (hxs a (List.mem_of_mem_drop ha)) false).mp (hdrop a ha)

/-- Inserting a value that is not there keeps the run ascending and adds
    exactly that value. -/
theorem insort_spec (hord : OrderedOn lt S) (hxs : ∀ a ∈ xs, S a) (hx : S x)
    (hasc : Ascending lt xs) (hnew : x ∉ xs) :
    ∃ ys, insort lt xs x = .ok ys ∧ Ascending lt ys ∧ ∀ a, a ∈ ys ↔ a = x ∨ a ∈ xs := by
  rcases bisectRight_spec hord hxs hx hasc with ⟨n, hn, htake, hdrop⟩
  refine ⟨xs.take n ++ x :: xs.drop n, ?_, ?_, fun a => ?_⟩
  · rw [insort, hn, Except.map]
  · rw [← List.take_append_drop n xs, Ascending, List.pairwise_append] at hasc
    rw [Ascending, List.pairwise_append, List.pairwise_cons]
    refine ⟨hasc.1, ⟨hdrop, hasc.2.1⟩, ?_⟩
    intro a ha b hb
    rcases List.mem_cons.mp hb with rfl | hb
    · have hmem := List.mem_of_mem_take ha
      exact hord.lt_of_not_lt hx (hxs a hmem) (fun hc => hnew (hc ▸ hmem)) (htake a ha)
    · exact hasc.2.2 a ha b hb
  · conv_rhs => rw [← List.take_append_drop n xs]
    simp only [List.mem_append, List.mem_cons]
    tauto

theorem foldlM_insort_spec (hord : OrderedOn lt S) (ys : List α) :
    ∀ xs : List α, (∀ a ∈ xs, S a) → (∀ a ∈ ys, S a) → Ascending lt xs → ys.Nodup →
      (∀ a ∈ ys, a ∉ xs) →
      ∃ zs, ys.foldlM (insort lt) xs = .ok zs ∧ Ascending lt zs ∧
        ∀ a, a ∈ zs ↔ a ∈ xs ∨ a ∈ ys := by
  induction ys with
  | nil =>
      intro xs _ _ hasc _ _
      exact ⟨xs, rfl, hasc, fun a => by simp⟩
  | cons y ys ih =>
      intro xs hxs hys hasc hnd hdisj
      rw [List.nodup_cons] at hnd
      have hy := hys y List.mem_cons_self
      rcases insort_spec hord hxs hy hasc (hdisj y List.mem_cons_self) with
        ⟨xs', hins, hasc', hmem'⟩
      have hxs' : ∀ a ∈ xs', S a := fun a ha => by
        rcases (hmem' a).mp ha with rfl | ha
        · exact hy
        · exact hxs a ha
      have hdisj' : ∀ a ∈ ys, a ∉ xs' := fun a ha hc => by
        rcases (hmem' a).mp hc with rfl | hc
        · exact hnd.1 ha
        · exact hdisj a (List.mem_cons_of_mem y ha) hc
      rcases ih xs' hxs' (fun a ha => hys a (List.mem_cons_of_mem y ha)) hasc' hnd.2 hdisj' with
        ⟨zs, hfold, hzs, hmem⟩
      refine ⟨zs, ?_, hzs, fun a => ?_⟩
      · rw [List.foldlM_cons, hins]
        exact hfold
      · rw [hmem, hmem', List.mem_cons]
        tauto

/-- Sorting distinct comparable values gives the ascending run of them. -/
theorem sortedRun_spec (hord : OrderedOn lt S) (hxs : ∀ a ∈ xs, S a) (hnd : xs.Nodup) :
    ∃ ys, sortedRun lt xs = .ok ys ∧ Ascending lt ys ∧ ∀ a, a ∈ ys ↔ a ∈ xs := by
  rcases foldlM_insort_spec hord xs [] (fun a ha => absurd ha List.not_mem_nil) hxs
    List.Pairwise.nil hnd (fun a _ => List.not_mem_nil) with ⟨ys, hfold, hasc, hmem⟩
  exact ⟨ys, hfold, hasc, fun a => by rw [hmem]; simp⟩

/-- Two ascending runs with the same elements are the same run. -/
theorem ascending_ext (hord : OrderedOn lt S) : ∀ {xs ys : List α}, (∀ a ∈ xs, S a) →
    (∀ a ∈ ys, S a) → Ascending lt xs → Ascending lt ys → (∀ a, a ∈ xs ↔ a ∈ ys) → xs = ys := by
  intro xs ys hxs hys hax hay hmem
  have hnodup : ∀ {zs : List α}, (∀ a ∈ zs, S a) → Ascending lt zs → zs.Nodup := by
    intro zs hzs haz
    refine List.Pairwise.imp_of_mem ?_ haz
    intro a b ha _ hab
    exact hord.ne_of_lt (hzs a ha) hab
  have hperm : xs.Perm ys := (List.perm_ext_iff_of_nodup (hnodup hxs hax) (hnodup hys hay)).mpr hmem
  refine hperm.eq_of_pairwise ?_ hax hay
  intro a b ha hb hab hba
  rw [hord.asymm (hxs a ha) (hys b hb) hab] at hba
  simp at hba

end Ordered

end DataCrystal
