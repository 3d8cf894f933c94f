import DataCrystal.Lib.Raise

/-!
# What a Program Keeps and What it Returns

A program with state may raise, and a program that raises has changed the state as
well. `Framed` says of a run that it takes the state to one that `R` relates to the
first, however it ends, and of what it returns, if it returns, that it is `Q`. With
`R` reflexive and transitive the rules follow the program: for a sequence it is
enough to know the first part, and the second part in the states the first one
returns in.

## Main definitions

* `Framed`: A run keeps to a relation and returns what a condition says.

## Theorems

* `framed_bind`, `framed_mapM`, `framed_forM`: The rules for a sequence and for a loop.
-/

namespace DataCrystal

variable {ε σ α β : Type} {R : σ → σ → Prop}

/-- Running `m` in `s` keeps to `R`, and what it returns is `Q`. The first holds
    whether `m` returns or raises, the second only where it returns. -/
structure Framed (R : σ → σ → Prop) (m : EStateM ε σ α) (s : σ) (Q : α → σ → Prop) : Prop where
  keeps : R s (finalState (m s))
  returns : ∀ a t, m s = .ok a t → Q a t

theorem Framed.imp {m : EStateM ε σ α} {s : σ} {Q Q' : α → σ → Prop} (h : Framed R m s Q)
    (hQ : ∀ a t, R s t → Q a t → Q' a t) : Framed R m s Q' := by
  refine ⟨h.keeps, fun a t hrun => hQ a t ?_ (h.returns a t hrun)⟩
  have hkeeps := h.keeps
  rw [hrun] at hkeeps
  exact hkeeps

/-- What a run keeps to, a wider relation allows. -/
theorem Framed.widen {R' : σ → σ → Prop} {m : EStateM ε σ α} {s : σ} {Q : α → σ → Prop}
    (h : Framed R m s Q) (hR : ∀ t, R s t → R' s t) : Framed R' m s Q :=
  ⟨hR _ h.keeps, h.returns⟩

theorem framed_pure (hrefl : ∀ s, R s s) {s : σ} {a : α} {Q : α → σ → Prop} (h : Q a s) :
    Framed R (pure a : EStateM ε σ α) s Q := by
  refine ⟨hrefl s, fun b t hrun => ?_⟩
  cases hrun
  exact h

theorem framed_throw (hrefl : ∀ s, R s s) {s : σ} {e : ε} {Q : α → σ → Prop} :
    Framed R (throw e : EStateM ε σ α) s Q :=
  ⟨hrefl s, fun _ _ hrun => nomatch hrun⟩

theorem framed_modify {s : σ} {f : σ → σ} {Q : PUnit → σ → Prop} (hR : R s (f s))
    (h : Q ⟨⟩ (f s)) : Framed R (modify f : EStateM ε σ PUnit) s Q := by
  refine ⟨hR, fun a t hrun => ?_⟩
  cases hrun
  exact h

theorem framed_set {s t : σ} {Q : PUnit → σ → Prop} (hR : R s t) (h : Q ⟨⟩ t) :
    Framed R (set t : EStateM ε σ PUnit) s Q := by
  refine ⟨hR, fun a t hrun => ?_⟩
  cases hrun
  exact h

theorem framed_get_bind {f : σ → EStateM ε σ β} {s : σ} {Q : β → σ → Prop}
    (h : Framed R (f s) s Q) : Framed R (get >>= f) s Q :=
  ⟨h.keeps, h.returns⟩

theorem framed_raiseIf (hrefl : ∀ s, R s s) {c : Bool} {s : σ} {e : ε} :
    Framed R (raiseIf c e) s fun _ t => t = s ∧ c = false := by
  cases c with
  | false => exact framed_pure hrefl ⟨rfl, rfl⟩
  | true => exact framed_throw hrefl

theorem framed_ofExcept (hrefl : ∀ s, R s s) {x : Except ε α} {s : σ} :
    Framed R (ofExcept x) s fun a t => t = s ∧ x = .ok a := by
  cases x with
  | ok a => exact framed_pure hrefl ⟨rfl, rfl⟩
  | error e => exact framed_throw hrefl

section Rules

variable (htrans : ∀ s t u, R s t → R t u → R s u)

include htrans

/-- The second program is looked at in the states the first returns in. -/
theorem framed_bind {m : EStateM ε σ α} {f : α → EStateM ε σ β} {s : σ} {P : α → σ → Prop}
    {Q : β → σ → Prop} (hm : Framed R m s P)
    (hf : ∀ a t, R s t → P a t → Framed R (f a) t Q) : Framed R (m >>= f) s Q := by
  have hkeeps := hm.keeps
  cases hrun : m s with
  | ok a t =>
      rw [hrun] at hkeeps
      have hrest := hf a t hkeeps (hm.returns a t hrun)
      have hbind : (m >>= f) s = f a t := bind_run_ok hrun
      refine ⟨?_, fun b u hb => hrest.returns b u (hbind ▸ hb)⟩
      rw [hbind]
      exact htrans _ _ _ hkeeps hrest.keeps
  | error e t =>
      rw [hrun] at hkeeps
      have hbind : (m >>= f) s = .error e t := bind_run_error hrun
      refine ⟨?_, fun b u hb => ?_⟩
      · rw [hbind]
        exact hkeeps
      · rw [hbind] at hb
        cases hb

/-- Each result is `Q`, and stays `Q` while the rest of the loop runs. -/
theorem framed_mapM (hrefl : ∀ s, R s s) {f : α → EStateM ε σ β} {Q : β → σ → Prop}
    (hmono : ∀ b t u, R t u → Q b t → Q b u) (xs : List α)
    (hf : ∀ a ∈ xs, ∀ s, Framed R (f a) s Q) :
    ∀ s, Framed R (xs.mapM f) s fun ys t => ∀ y ∈ ys, Q y t := by
  induction xs with
  | nil =>
      intro s
      rw [List.mapM_nil]
      exact framed_pure hrefl fun y hy => absurd hy List.not_mem_nil
  | cons x xs ih =>
      intro s
      have htail := ih fun a ha => hf a (List.mem_cons_of_mem x ha)
      rw [List.mapM_cons]
      refine framed_bind htrans (hf x List.mem_cons_self s) fun y t _ hy => ?_
      refine framed_bind htrans (htail t) fun ys u htu hys => ?_
      refine framed_pure hrefl fun z hz => ?_
      rcases List.mem_cons.mp hz with rfl | hz
      · exact hmono _ t u htu hy
      · exact hys z hz

/-- A loop over what is still to be done: `P` is the invariant. -/
theorem framed_forM (hrefl : ∀ s, R s s) {f : α → EStateM ε σ PUnit} {P : List α → σ → Prop}
    (hf : ∀ a rest s, P (a :: rest) s → Framed R (f a) s fun _ t => P rest t) (xs : List α) :
    ∀ s, P xs s → Framed R (xs.forM f) s fun _ t => P [] t := by
  induction xs with
  | nil => exact fun s hs => framed_pure hrefl hs
  | cons x xs ih =>
      intro s hs
      exact framed_bind htrans (hf x xs s hs) fun _ t _ ht => ih t ht

end Rules

theorem framed_eq_trans (s t u : σ) : s = t → t = u → s = u := Eq.trans

/-- A loop that leaves the state and each element as it is. -/
theorem framed_mapM_self {f : α → EStateM ε σ α} {s : σ} (xs : List α)
    (hf : ∀ a ∈ xs, Framed Eq (f a) s fun b _ => b = a) :
    Framed Eq (xs.mapM f) s fun ys _ => ys = xs := by
  have hrefl : ∀ s : σ, s = s := fun _ => rfl
  induction xs with
  | nil =>
      rw [List.mapM_nil]
      exact framed_pure hrefl rfl
  | cons x xs ih =>
      rw [List.mapM_cons]
      refine framed_bind framed_eq_trans (hf x List.mem_cons_self) ?_
      rintro y _ rfl rfl
      refine framed_bind framed_eq_trans (ih fun a ha => hf a (List.mem_cons_of_mem y ha)) ?_
      rintro ys _ rfl rfl
      exact framed_pure hrefl rfl

end DataCrystal
