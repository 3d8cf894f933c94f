import DataCrystal.Lib.Framed

/-!
# Programs with a Cache

A program that keeps what it has worked out may return something else than one that
works everything out anew, if what it keeps is not what it would work out now.
`Gives` says that in every state that keeps to `I` a program returns what a
computation without state returns, or raises what it raises, and that it keeps to
`I`. The rules follow the program, so that reading it once yields the computation it
stands for, and no proof looks at what happens to be cached.

The invariant says of each cache what its entries are. It is used in one place only,
the rule for a lookup that falls back on the computation (`gives_memo`).

## Main definitions

* `resultOf`: What a run returned or raised.
* `Gives`: A program stands for a computation.
* `memo`: Look something up, or work it out and keep it.

## Theorems

* `gives_bind`: The rule for a sequence.
* `gives_memo`: The rule for a cache.
-/

namespace DataCrystal

variable {ε σ α β : Type} {I : σ → Prop}

/-- What a run returned or raised. -/
def resultOf : EStateM.Result ε σ α → Except ε α
  | .ok a _ => .ok a
  | .error e _ => .error e

/-- From every state that keeps to `I` a program comes to what a computation without
    state comes to, and it keeps to `I`. -/
structure Gives (I : σ → Prop) (m : EStateM ε σ α) (x : Except ε α) : Prop where
  keeps : ∀ s, I s → I (finalState (m s))
  gives : ∀ s, I s → resultOf (m s) = x

/-- Look something up. What is not found is worked out and kept. -/
def memo (lookup : σ → Option α) (keep : α → σ → σ) (build : Except ε α) : EStateM ε σ α := do
  let s ← get
  match lookup s with
  | some a => pure a
  | none => do
    let a ← ofExcept build
    modify (keep a)
    pure a

theorem gives_pure (a : α) : Gives I (pure a : EStateM ε σ α) (.ok a) :=
  ⟨fun _ hs => hs, fun _ _ => rfl⟩

theorem gives_throw (e : ε) : Gives I (throw e : EStateM ε σ α) (.error e) :=
  ⟨fun _ hs => hs, fun _ _ => rfl⟩

theorem gives_ofExcept (x : Except ε α) : Gives I (ofExcept x : EStateM ε σ α) x := by
  cases x with
  | ok a => exact gives_pure a
  | error e => exact gives_throw e

/-- A run that comes to a result does so in a state that keeps to the invariant. -/
theorem Gives.ok {m : EStateM ε σ α} {x : Except ε α} (h : Gives I m x) {s t : σ} {a : α}
    (hs : I s) (hrun : m s = .ok a t) : I t ∧ x = .ok a := by
  have hkeeps := h.keeps s hs
  have hgives := h.gives s hs
  rw [hrun] at hkeeps hgives
  exact ⟨hkeeps, hgives.symm⟩

theorem Gives.error {m : EStateM ε σ α} {x : Except ε α} (h : Gives I m x) {s t : σ} {e : ε}
    (hs : I s) (hrun : m s = .error e t) : I t ∧ x = .error e := by
  have hkeeps := h.keeps s hs
  have hgives := h.gives s hs
  rw [hrun] at hkeeps hgives
  exact ⟨hkeeps, hgives.symm⟩

/-- The second program is looked at in the states the first one comes to. -/
theorem gives_bind_run {m : EStateM ε σ α} {x : Except ε α} {f : α → EStateM ε σ β}
    {y : Except ε β} (hm : Gives I m x) (herror : ∀ e, x = .error e → y = .error e)
    (hf : ∀ s a t, I s → I t → m s = .ok a t → x = .ok a →
      I (finalState (f a t)) ∧ resultOf (f a t) = y) : Gives I (m >>= f) y := by
  have hrun : ∀ s, I s → I (finalState ((m >>= f) s)) ∧ resultOf ((m >>= f) s) = y := by
    intro s hs
    cases hm' : m s with
    | ok a t =>
        rw [bind_run_ok hm']
        exact hf s a t hs (hm.ok hs hm').1 hm' (hm.ok hs hm').2
    | error e t =>
        rw [bind_run_error hm']
        exact ⟨(hm.error hs hm').1, (herror e (hm.error hs hm').2).symm⟩
  exact ⟨fun s hs => (hrun s hs).1, fun s hs => (hrun s hs).2⟩

theorem gives_bind {m : EStateM ε σ α} {x : Except ε α} {f : α → EStateM ε σ β}
    {g : α → Except ε β} (hm : Gives I m x) (hf : ∀ a, x = .ok a → Gives I (f a) (g a)) :
    Gives I (m >>= f) (x >>= g) := by
  refine gives_bind_run hm (fun e he => by rw [he]; rfl) fun s a t _ ht _ ha => ?_
  rw [ha]
  exact ⟨(hf a ha).keeps t ht, (hf a ha).gives t ht⟩

theorem gives_map {m : EStateM ε σ α} {x : Except ε α} (h : Gives I m x) (f : α → β) :
    Gives I (m >>= fun a => pure (f a)) (x.map f) := by
  have hmap : x.map f = x >>= fun a => .ok (f a) := by cases x <;> rfl
  rw [hmap]
  exact gives_bind h fun a _ => gives_pure (f a)

theorem gives_forM {f : α → EStateM ε σ PUnit} {g : α → Except ε PUnit} (xs : List α)
    (h : ∀ a ∈ xs, Gives I (f a) (g a)) : Gives I (xs.forM f) (xs.forM g) := by
  induction xs with
  | nil => exact gives_pure PUnit.unit
  | cons x xs ih =>
      refine gives_bind (h x List.mem_cons_self) fun _ _ => ?_
      exact ih fun a ha => h a (List.mem_cons_of_mem x ha)

/-- A program that goes by what is cached. -/
theorem gives_get_bind {f : σ → EStateM ε σ α} {x : Except ε α}
    (h : ∀ s, I s → Gives I (f s) x) : Gives I (get >>= f) x :=
  ⟨fun s hs => (h s hs).keeps s hs, fun s hs => (h s hs).gives s hs⟩

theorem gives_modify {f : σ → σ} (h : ∀ s, I s → I (f s)) :
    Gives I (modify f : EStateM ε σ PUnit) (.ok PUnit.unit) :=
  ⟨h, fun _ _ => rfl⟩

/-- What a cache holds is what would be worked out now. -/
theorem gives_memo {lookup : σ → Option α} {keep : α → σ → σ} {build : Except ε α}
    (hhit : ∀ s a, I s → lookup s = some a → build = .ok a)
    (hkeep : ∀ s a, I s → build = .ok a → I (keep a s)) :
    Gives I (memo lookup keep build) build := by
  have hrun : ∀ s, I s → I (finalState (memo lookup keep build s)) ∧
      resultOf (memo lookup keep build s) = build := by
    intro s hs
    rw [memo, bind_run_ok (get_run s)]
    cases hlook : lookup s with
    | some a => exact ⟨hs, (hhit s a hs hlook).symm⟩
    | none =>
        cases build with
        | error e => exact ⟨hs, rfl⟩
        | ok a => exact ⟨hkeep s a hs rfl, rfl⟩
  exact ⟨fun s hs => (hrun s hs).1, fun s hs => (hrun s hs).2⟩

end DataCrystal
