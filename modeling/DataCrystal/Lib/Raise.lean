import Mathlib.Logic.Relation
import Mathlib.Data.List.Forall2

/-!
# Programs That Raise

Rules for `EStateM` programs: imperative code on an explicit state that may
raise, and that keeps, when it raises, every change made up to there.

`Moves M m` says that running `m` changes the state by finitely many moves of
`M`, whether it returns or raises. It composes along the program text, one rule
per construct, so a program is checked against a step relation by reading it
once. An invariant of the moves is then an invariant of the program, and no
proof about the invariant looks inside the program again.

The other half is about results. `bind_ok_iff` takes a successful run apart at
each bind, which replaces unfolding a long program by naming the states it went
through.

## Main definitions

* `finalState`: The state a run ends in.
* `raiseIf`: Raise an exception under a condition.
* `ofExcept`: A computation without state, as a program.
* `zoom`: A program on a part of the state.
* `attempt`: A program whose exception is its result.
* `MovesAt`, `Moves`: Running a program takes finitely many steps of a relation.
* `Keeps`: A program keeps a property of the state.
* `RaisesOnly`: The exceptions a program can raise.
* `Leads`: A program leads from one property to another, or to a third if it raises.
* `Commutes`: A program runs alike before and behind a change of the state.
* `Alongside`: Two runs come to the same in related states.

## Theorems

* `bind_ok_iff`: A successful bind is two successful runs.
* `moves_bind`, `moves_forM`, `moves_foldlM`: Moves compose.
* `moves_invariant`: An invariant of the moves survives the program.
-/

namespace DataCrystal

variable {σ ε α β : Type}

/-- The state a run ends in, returned or raised. -/
def finalState : EStateM.Result ε σ α → σ
  | .ok _ s => s
  | .error _ s => s

@[simp]
theorem finalState_ok (a : α) (s : σ) : finalState (.ok a s : EStateM.Result ε σ α) = s := rfl

@[simp]
theorem finalState_error (e : ε) (s : σ) :
    finalState (.error e s : EStateM.Result ε σ α) = s := rfl

/-- What a program returned and the state it returned in, if it did. -/
def outcome : EStateM.Result ε σ α → Option (α × σ)
  | .ok a s => some (a, s)
  | .error _ _ => none

theorem outcome_eq_some {r : EStateM.Result ε σ α} {a : α} {s : σ} :
    outcome r = some (a, s) ↔ r = .ok a s := by
  cases r with
  | ok b t => simp [outcome]
  | error e t => simp [outcome]

/-- Raise an exception under a condition. -/
def raiseIf (c : Bool) (e : ε) : EStateM ε σ Unit := if c then throw e else pure ()

/-- A computation without state, as a program. -/
def ofExcept (x : Except ε α) : EStateM ε σ α :=
  match x with
  | .ok a => pure a
  | .error e => throw e

/-- A program on a part of the state. -/
def zoom {τ : Type} (part : σ → τ) (put : τ → σ → σ) (m : EStateM ε τ α) : EStateM ε σ α := fun s =>
  match m (part s) with
  | .ok a t => .ok a (put t s)
  | .error e t => .error e (put t s)

/-- Run a program and catch what it raises. -/
def attempt (m : EStateM ε σ α) : EStateM ε σ (Except ε α) := fun s =>
  match m s with
  | .ok a t => .ok (.ok a) t
  | .error e t => .ok (.error e) t

theorem pure_run (a : α) (s : σ) : (pure a : EStateM ε σ α) s = .ok a s := rfl

theorem throw_run (e : ε) (s : σ) : (throw e : EStateM ε σ α) s = .error e s := rfl

theorem get_run (s : σ) : (get : EStateM ε σ σ) s = .ok s s := rfl

theorem set_run (t s : σ) : (set t : EStateM ε σ PUnit) s = .ok ⟨⟩ t := rfl

theorem modify_run (f : σ → σ) (s : σ) : (modify f : EStateM ε σ PUnit) s = .ok ⟨⟩ (f s) := rfl

theorem bind_run (m : EStateM ε σ α) (f : α → EStateM ε σ β) (s : σ) :
    (m >>= f) s = match m s with
      | .ok a s' => f a s'
      | .error e s' => .error e s' := by
  change EStateM.bind m f s = _
  rw [EStateM.bind]
  cases m s <;> rfl

theorem bind_run_ok {m : EStateM ε σ α} {f : α → EStateM ε σ β} {s s' : σ} {a : α}
    (h : m s = .ok a s') : (m >>= f) s = f a s' := by
  rw [bind_run, h]

theorem bind_run_error {m : EStateM ε σ α} {f : α → EStateM ε σ β} {s s' : σ} {e : ε}
    (h : m s = .error e s') : (m >>= f) s = .error e s' := by
  rw [bind_run, h]

/-- Programs that run alike run alike in front of another one. -/
theorem bind_run_congr {m m' : EStateM ε σ α} {f : α → EStateM ε σ β} {s s' : σ}
    (h : m s = m' s') : (m >>= f) s = (m' >>= f) s' := by
  rw [bind_run, bind_run, h]

/-- A successful bind is two successful runs, one after the other. -/
theorem bind_ok_iff {m : EStateM ε σ α} {f : α → EStateM ε σ β} {s s'' : σ} {b : β} :
    (m >>= f) s = .ok b s'' ↔ ∃ a s', m s = .ok a s' ∧ f a s' = .ok b s'' := by
  rw [bind_run]
  cases h : m s with
  | ok a s' =>
      constructor
      · exact fun hf => ⟨a, s', rfl, hf⟩
      · rintro ⟨a', s₁, heq, hf⟩
        cases heq
        exact hf
  | error e s' => simp

/-- A successful bind without state. -/
theorem except_bind_ok_iff {x : Except ε α} {f : α → Except ε β} {b : β} :
    (x >>= f) = .ok b ↔ ∃ a, x = .ok a ∧ f a = .ok b := by
  cases x with
  | ok a =>
      constructor
      · exact fun h => ⟨a, rfl, h⟩
      · rintro ⟨a', heq, h⟩
        cases heq
        exact h
  | error e =>
      constructor
      · exact fun h => nomatch h
      · rintro ⟨a', heq, -⟩
        cases heq

/-- A loop without state that collects results. -/
theorem except_mapError_ok_iff {ε' : Type} {x : Except ε α} {g : ε → ε'} {a : α} :
    x.mapError g = .ok a ↔ x = .ok a := by
  cases x with
  | ok b => exact ⟨fun h => by cases h; rfl, fun h => by cases h; rfl⟩
  | error e => exact ⟨fun h => (nomatch h), fun h => (nomatch h)⟩

theorem except_mapM_cons_ok {f : α → Except ε β} {x : α} {xs : List α} {ys : List β}
    (h : (x :: xs).mapM f = .ok ys) : ∃ y rest, ys = y :: rest ∧ f x = .ok y ∧
      xs.mapM f = .ok rest := by
  rw [List.mapM_cons] at h
  rcases except_bind_ok_iff.mp h with ⟨y, hy, h⟩
  rcases except_bind_ok_iff.mp h with ⟨rest, hrest, h⟩
  cases h
  exact ⟨y, rest, rfl, hy, hrest⟩

/-- Every element has its result. -/
theorem except_mapM_mem {f : α → Except ε β} {xs : List α} : ∀ {ys : List β},
    xs.mapM f = .ok ys → ∀ x ∈ xs, ∃ y ∈ ys, f x = .ok y := by
  induction xs with
  | nil => exact fun _ x hx => absurd hx List.not_mem_nil
  | cons x xs ih =>
      intro ys h z hz
      rcases except_mapM_cons_ok h with ⟨y, rest, rfl, hy, hrest⟩
      rcases List.mem_cons.mp hz with rfl | hz
      · exact ⟨y, List.mem_cons_self, hy⟩
      · rcases ih hrest z hz with ⟨w, hw, hfw⟩
        exact ⟨w, List.mem_cons_of_mem y hw, hfw⟩

/-- Every result is the result of an element. -/
theorem mem_of_except_mapM {f : α → Except ε β} {xs : List α} : ∀ {ys : List β},
    xs.mapM f = .ok ys → ∀ y ∈ ys, ∃ x ∈ xs, f x = .ok y := by
  induction xs with
  | nil =>
      intro ys h y hy
      cases h
      exact absurd hy List.not_mem_nil
  | cons x xs ih =>
      intro ys h z hz
      rcases except_mapM_cons_ok h with ⟨y, rest, rfl, hy, hrest⟩
      rcases List.mem_cons.mp hz with rfl | hz
      · exact ⟨x, List.mem_cons_self, hy⟩
      · rcases ih hrest z hz with ⟨w, hw, hfw⟩
        exact ⟨w, List.mem_cons_of_mem x hw, hfw⟩

/-- What every result shows of its element, the results show of the elements. -/
theorem except_mapM_map {γ : Type} {f : α → Except ε β} {g : α → γ} {g' : β → γ}
    (hg : ∀ x y, f x = .ok y → g' y = g x) {xs : List α} : ∀ {ys : List β},
    xs.mapM f = .ok ys → ys.map g' = xs.map g := by
  induction xs with
  | nil =>
      intro ys h
      cases h
      rfl
  | cons x xs ih =>
      intro ys h
      rcases except_mapM_cons_ok h with ⟨y, rest, rfl, hy, hrest⟩
      rw [List.map_cons, List.map_cons, hg x y hy, ih hrest]

/-- A loop whose steps all succeed. -/
theorem except_foldlM_ok {f : σ → α → Except ε σ} {g : σ → α → σ} (xs : List α) :
    ∀ s, (∀ x ∈ xs, ∀ s, f s x = .ok (g s x)) → xs.foldlM f s = .ok (xs.foldl g s) := by
  induction xs with
  | nil => exact fun s _ => rfl
  | cons x xs ih =>
      intro s h
      rw [List.foldlM_cons, h x List.mem_cons_self]
      exact ih _ fun y hy => h y (List.mem_cons_of_mem x hy)

/-- Every step of a loop that succeeds has succeeded. -/
theorem except_foldlM_mem {f : σ → α → Except ε σ} {xs : List α} : ∀ {s s' : σ},
    xs.foldlM f s = .ok s' → ∀ x ∈ xs, ∃ r r', f r x = .ok r' := by
  induction xs with
  | nil => exact fun _ x hx => absurd hx List.not_mem_nil
  | cons x xs ih =>
      intro s s' h y hy
      rw [List.foldlM_cons] at h
      rcases except_bind_ok_iff.mp h with ⟨r, hr, hrest⟩
      rcases List.mem_cons.mp hy with rfl | hy
      · exact ⟨s, r, hr⟩
      · exact ih hrest y hy

/-- A loop whose steps all leave the state. -/
theorem except_foldlM_still {f : σ → α → Except ε σ} {s : σ} {xs : List α}
    (h : ∀ x ∈ xs, f s x = .ok s) : xs.foldlM f s = .ok s := by
  induction xs with
  | nil => rfl
  | cons x xs ih =>
      rw [List.foldlM_cons, h x List.mem_cons_self]
      exact ih fun y hy => h y (List.mem_cons_of_mem x hy)

/-- What every step of a loop keeps, from the elements behind it to one more. -/
theorem except_foldlM_invariant {f : σ → α → Except ε σ} {J : List α → σ → Prop} {xs : List α} :
    ∀ {done : List α} {s s' : σ}, xs.foldlM f s = .ok s' →
      (∀ done x s s', x ∈ xs → f s x = .ok s' → J done s → J (done ++ [x]) s') →
      J done s → J (done ++ xs) s' := by
  induction xs with
  | nil =>
      intro done s s' h _ hJ
      cases h
      rwa [List.append_nil]
  | cons x xs ih =>
      intro done s s' h hstep hJ
      rw [List.foldlM_cons] at h
      rcases except_bind_ok_iff.mp h with ⟨r, hr, hrest⟩
      have hone := hstep done x s r List.mem_cons_self hr hJ
      rw [← List.singleton_append, ← List.append_assoc]
      exact ih hrest (fun done y s s' hy => hstep done y s s' (List.mem_cons_of_mem x hy)) hone

/-- The same from the start of the loop. -/
theorem except_foldlM_spec {f : σ → α → Except ε σ} {J : List α → σ → Prop} {xs : List α}
    {s s' : σ} (h : xs.foldlM f s = .ok s')
    (hstep : ∀ done x s s', x ∈ xs → f s x = .ok s' → J done s → J (done ++ [x]) s')
    (hstart : J [] s) : J xs s' :=
  except_foldlM_invariant h hstep hstart

/-- A loop whose steps append what they find returns when no step raises, with everything
    that was found. -/
theorem except_foldlM_collect {β : Type} {f : List β → α → Except ε (List β)} {P : α → Prop}
    {g : α → List β} (xs : List α)
    (hf : ∀ x ∈ xs, ∀ acc acc', f acc x = .ok acc' ↔ P x ∧ acc' = acc ++ g x) : ∀ acc acc',
    xs.foldlM f acc = .ok acc' ↔ (∀ x ∈ xs, P x) ∧ acc' = acc ++ xs.flatMap g := by
  induction xs with
  | nil =>
      intro acc acc'
      rw [List.flatMap_nil, List.append_nil]
      constructor
      · intro h
        cases h
        exact ⟨fun x hx => absurd hx List.not_mem_nil, rfl⟩
      · rintro ⟨-, rfl⟩
        rfl
  | cons x xs ih =>
      intro acc acc'
      have hrest := ih fun y hy => hf y (List.mem_cons_of_mem x hy)
      rw [List.foldlM_cons, except_bind_ok_iff, List.forall_mem_cons, List.flatMap_cons]
      constructor
      · rintro ⟨mid, hx, hxs⟩
        rcases (hf x List.mem_cons_self acc mid).mp hx with ⟨hone, rfl⟩
        rcases (hrest _ _).mp hxs with ⟨hall, rfl⟩
        exact ⟨⟨hone, hall⟩, List.append_assoc _ _ _⟩
      · rintro ⟨⟨hone, hall⟩, rfl⟩
        exact ⟨acc ++ g x, (hf x List.mem_cons_self _ _).mpr ⟨hone, rfl⟩,
          (hrest _ _).mpr ⟨hall, (List.append_assoc _ _ _).symm⟩⟩

/-- A loop that collects the results of its elements. -/
theorem loop_ok_iff {f : α → Except ε β}
    {loop : List α → Except ε (List β)} (hnil : loop [] = .ok [])
    (hcons : ∀ x xs, loop (x :: xs) = f x >>= fun y => loop xs >>= fun ys => pure (y :: ys)) :
    ∀ xs ys, loop xs = .ok ys ↔ List.Forall₂ (fun x y => f x = .ok y) xs ys := by
  intro xs
  induction xs with
  | nil =>
      intro ys
      rw [hnil, List.forall₂_nil_left_iff, Except.ok.injEq]
      exact eq_comm
  | cons x xs ih =>
      intro ys
      rw [hcons, except_bind_ok_iff, List.forall₂_cons_left_iff]
      constructor
      · rintro ⟨y, hy, h⟩
        rcases except_bind_ok_iff.mp h with ⟨rest, hrest, h⟩
        cases h
        exact ⟨y, rest, hy, (ih rest).mp hrest, rfl⟩
      · rintro ⟨y, rest, hy, hrest, rfl⟩
        exact ⟨y, hy, except_bind_ok_iff.mpr ⟨rest, (ih rest).mpr hrest, rfl⟩⟩

theorem except_mapM_ok_iff {f : α → Except ε β} (xs : List α) (ys : List β) :
    xs.mapM f = .ok ys ↔ List.Forall₂ (fun x y => f x = .ok y) xs ys :=
  loop_ok_iff List.mapM_nil (fun _ _ => List.mapM_cons) xs ys

/-- A mapping returns what each of its steps returns. -/
theorem except_mapM_mem_iff {f : α → Except ε β} {xs : List α} {ys : List β}
    (h : xs.mapM f = .ok ys) {y : β} : y ∈ ys ↔ ∃ x ∈ xs, f x = .ok y := by
  constructor
  · exact mem_of_except_mapM h y
  · rintro ⟨x, hx, hone⟩
    rcases except_mapM_mem h x hx with ⟨y', hy', hone'⟩
    cases hone.symm.trans hone'
    exact hy'

/-- A mapping returns when each of its steps does. -/
theorem except_mapM_returns_iff {f : α → Except ε β} {xs : List α} :
    (∃ ys, xs.mapM f = .ok ys) ↔ ∀ x ∈ xs, ∃ y, f x = .ok y := by
  constructor
  · rintro ⟨ys, hys⟩ x hx
    rcases except_mapM_mem hys x hx with ⟨y, -, hone⟩
    exact ⟨y, hone⟩
  · intro h
    induction xs with
    | nil => exact ⟨[], rfl⟩
    | cons x xs ih =>
        rcases h x List.mem_cons_self with ⟨y, hy⟩
        rcases ih fun z hz => h z (List.mem_cons_of_mem x hz) with ⟨ys, hys⟩
        rw [List.mapM_cons, hy, hys]
        exact ⟨_, rfl⟩

theorem except_mapM_ok {β : Type} {f : α → Except ε β} {g : α → β} (xs : List α)
    (h : ∀ x ∈ xs, f x = .ok (g x)) : xs.mapM f = .ok (xs.map g) := by
  induction xs with
  | nil => rfl
  | cons x xs ih =>
      rw [List.mapM_cons, h x List.mem_cons_self, ih fun y hy => h y (List.mem_cons_of_mem x hy)]
      rfl

/-- A loop in `Except` returns if every step does. -/
theorem except_forM_ok_iff {f : α → Except ε PUnit} (xs : List α) :
    xs.forM f = .ok ⟨⟩ ↔ ∀ x ∈ xs, f x = .ok ⟨⟩ := by
  induction xs with
  | nil => exact ⟨fun _ x hx => absurd hx List.not_mem_nil, fun _ => rfl⟩
  | cons x xs ih =>
      rw [List.forall_mem_cons, ← ih]
      change (f x).bind (fun _ => xs.forM f) = _ ↔ _
      cases hx : f x with
      | error e => simp [Except.bind]
      | ok u => exact ⟨fun h => ⟨rfl, h⟩, fun h => h.2⟩

theorem forM_cons_run (f : α → EStateM ε σ PUnit) (x : α) (xs : List α) (s : σ) :
    (x :: xs).forM f s = (f x >>= fun _ => xs.forM f) s := rfl

theorem forM_append_run_ok {f : α → EStateM ε σ PUnit} {xs : List α} (ys : List α) :
    ∀ {s t : σ} {u : PUnit}, xs.forM f s = .ok u t → (xs ++ ys).forM f s = ys.forM f t := by
  induction xs with
  | nil =>
      intro s t u h
      cases h
      rfl
  | cons x xs ih =>
      intro s t u h
      rw [forM_cons_run] at h
      rcases bind_ok_iff.mp h with ⟨_, s', hx, hxs⟩
      rw [List.cons_append, forM_cons_run, bind_run_ok hx]
      exact ih hxs

/-- A successful loop over two lists is one over each. -/
theorem forM_append_ok {f : α → EStateM ε σ PUnit} {xs : List α} (ys : List α) {t : σ} :
    ∀ {s : σ}, (xs ++ ys).forM f s = .ok ⟨⟩ t → ∃ s₁, xs.forM f s = .ok ⟨⟩ s₁ ∧
      ys.forM f s₁ = .ok ⟨⟩ t := by
  induction xs with
  | nil => exact fun h => ⟨_, rfl, h⟩
  | cons x xs ih =>
      intro s h
      rw [List.cons_append, forM_cons_run] at h
      rcases bind_ok_iff.mp h with ⟨_, s', hone, hrest⟩
      rcases ih hrest with ⟨s₁, hxs, hys⟩
      refine ⟨s₁, ?_, hys⟩
      rw [forM_cons_run, bind_run_ok hone]
      exact hxs

/-- A loop whose steps all return, and keep a property on the way, returns. -/
theorem forM_run_ok {f : α → EStateM ε σ PUnit} {I : σ → Prop} {xs : List α} :
    (∀ x ∈ xs, ∀ s, I s → ∃ t, f x s = .ok ⟨⟩ t ∧ I t) → ∀ {s : σ}, I s →
      ∃ t, xs.forM f s = .ok ⟨⟩ t ∧ I t := by
  induction xs with
  | nil => exact fun _ s hs => ⟨s, rfl, hs⟩
  | cons x xs ih =>
      intro hstep s hs
      rcases hstep x List.mem_cons_self s hs with ⟨t, hrun, ht⟩
      rcases ih (fun y hy => hstep y (List.mem_cons_of_mem x hy)) ht with ⟨u, hruns, hu⟩
      exact ⟨u, by rw [forM_cons_run, bind_run_ok hrun]; exact hruns, hu⟩

/-- A loop whose steps all return, and keep a property of what is left to do. -/
theorem foldlM_run_ok {f : β → α → EStateM ε σ β} {J : List α → β → σ → Prop}
    (hstep : ∀ x xs b s, J (x :: xs) b s → ∃ b' s', f b x s = .ok b' s' ∧ J xs b' s') :
    ∀ {xs : List α} {b : β} {s : σ}, J xs b s →
      ∃ b' s', xs.foldlM f b s = .ok b' s' ∧ J [] b' s' := by
  intro xs
  induction xs with
  | nil => exact fun {b s} h => ⟨b, s, rfl, h⟩
  | cons x xs ih =>
      intro b s h
      rcases hstep x xs b s h with ⟨b₁, s₁, hrun, h₁⟩
      rcases ih h₁ with ⟨b₂, s₂, hruns, h₂⟩
      exact ⟨b₂, s₂, by rw [List.foldlM_cons, bind_run_ok hrun]; exact hruns, h₂⟩

/-- Every step of a loop that returned has returned. -/
theorem forM_ok_mem {f : α → EStateM ε σ PUnit} {xs : List α} :
    ∀ {s s' : σ} {u : PUnit}, xs.forM f s = .ok u s' →
      ∀ x ∈ xs, ∃ t t', f x t = .ok ⟨⟩ t' := by
  induction xs with
  | nil => exact fun _ x hx => absurd hx List.not_mem_nil
  | cons y ys ih =>
      intro s s' u h x hx
      rw [forM_cons_run] at h
      rcases bind_ok_iff.mp h with ⟨_, t, hy, hys⟩
      rcases List.mem_cons.mp hx with rfl | hx
      · exact ⟨s, t, hy⟩
      · exact ih hys x hx

theorem ofExcept_ok_iff {x : Except ε α} {s s' : σ} {a : α} :
    (ofExcept x : EStateM ε σ α) s = .ok a s' ↔ x = .ok a ∧ s' = s := by
  cases x with
  | ok b =>
      simp only [ofExcept, pure_run, EStateM.Result.ok.injEq, Except.ok.injEq]
      exact ⟨fun h => ⟨h.1, h.2.symm⟩, fun h => ⟨h.1, h.2.symm⟩⟩
  | error e => simp [ofExcept, throw_run]

theorem ofExcept_run_ok {x : Except ε α} {a : α} (h : x = .ok a) (s : σ) :
    (ofExcept x : EStateM ε σ α) s = .ok a s := by
  rw [h]
  rfl

theorem finalState_zoom {τ : Type} (part : σ → τ) (put : τ → σ → σ) (m : EStateM ε τ α) (s : σ) :
    finalState (zoom part put m s) = put (finalState (m (part s))) s := by
  rw [zoom]
  cases m (part s) <;> rfl

theorem finalState_attempt (m : EStateM ε σ α) (s : σ) :
    finalState (attempt m s) = finalState (m s) := by
  rw [attempt]
  cases m s <;> rfl

theorem attempt_ok {s t : σ} {a : α} {m : EStateM ε σ α}
    (h : attempt m s = .ok (.ok a) t) : m s = .ok a t := by
  unfold attempt at h
  cases hm : m s with
  | ok b u =>
      rw [hm] at h
      cases h
      rfl
  | error e u =>
      rw [hm] at h
      cases h

theorem attempt_error {s t : σ} {e : ε} {m : EStateM ε σ α}
    (h : attempt m s = .ok (.error e) t) : m s = .error e t := by
  rw [attempt] at h
  cases hm : m s with
  | ok a t' => simp [hm] at h
  | error e' t' =>
      simp only [hm, EStateM.Result.ok.injEq, Except.error.injEq] at h
      rw [h.1, h.2]

theorem zoom_ok_iff {τ : Type} {part : σ → τ} {put : τ → σ → σ} {m : EStateM ε τ α} {s s' : σ}
    {a : α} : zoom part put m s = .ok a s' ↔ ∃ t, m (part s) = .ok a t ∧ s' = put t s := by
  rw [zoom]
  cases m (part s) with
  | ok b t =>
      simp only [EStateM.Result.ok.injEq]
      constructor
      · exact fun h => ⟨t, ⟨h.1, rfl⟩, h.2.symm⟩
      · rintro ⟨t', ⟨hb, rfl⟩, hs⟩
        exact ⟨hb, hs.symm⟩
  | error e t => simp

theorem raiseIf_ok_iff {c : Bool} {e : ε} {s s' : σ} {u : Unit} :
    (raiseIf c e : EStateM ε σ Unit) s = .ok u s' ↔ c = false ∧ s' = s := by
  cases c with
  | true => simp [raiseIf, throw_run]
  | false =>
      simp only [raiseIf, Bool.false_eq_true, if_false, pure_run, EStateM.Result.ok.injEq, true_and]
      exact eq_comm

/-- Running a program in a state takes finitely many steps of `M`. -/
def MovesAt (M : σ → σ → Prop) (m : EStateM ε σ α) (s : σ) : Prop :=
  Relation.ReflTransGen M s (finalState (m s))

/-- Running a program takes finitely many steps of `M`, whether it returns or
    raises. -/
def Moves (M : σ → σ → Prop) (m : EStateM ε σ α) : Prop := ∀ s, MovesAt M m s

variable {M : σ → σ → Prop} {m : EStateM ε σ α}

theorem movesAt_pure (a : α) (s : σ) : MovesAt M (pure a : EStateM ε σ α) s := .refl

theorem movesAt_throw (e : ε) (s : σ) : MovesAt M (throw e : EStateM ε σ α) s := .refl

theorem movesAt_modify {f : σ → σ} {s : σ} (h : M s (f s)) :
    MovesAt M (modify f : EStateM ε σ PUnit) s := .single h

theorem movesAt_modifies {f : σ → σ} {s : σ} (h : Relation.ReflTransGen M s (f s)) :
    MovesAt M (modify f : EStateM ε σ PUnit) s := h

/-- The steps of a run that returned. -/
theorem MovesAt.of_ok {s t : σ} {a : α} (h : MovesAt M m s) (hrun : m s = .ok a t) :
    Relation.ReflTransGen M s t := by
  rw [MovesAt, hrun] at h
  exact h

/-- The steps of a run that raised. -/
theorem MovesAt.of_error {s t : σ} {e : ε} (h : MovesAt M m s) (hrun : m s = .error e t) :
    Relation.ReflTransGen M s t := by
  rw [MovesAt, hrun] at h
  exact h

theorem movesAt_get_bind {f : σ → EStateM ε σ β} {s : σ} (h : MovesAt M (f s) s) :
    MovesAt M (get >>= f) s := h

/-- The second program is looked at only in the states the first returns in. -/
theorem movesAt_bind {f : α → EStateM ε σ β} {s : σ} (hm : MovesAt M m s)
    (hf : ∀ a t, m s = .ok a t → MovesAt M (f a) t) : MovesAt M (m >>= f) s := by
  rw [MovesAt, bind_run]
  rw [MovesAt] at hm
  cases h : m s with
  | ok a t =>
      rw [h] at hm
      exact hm.trans (hf a t h)
  | error e t =>
      rw [h] at hm
      exact hm

/-- A change of state that no exception interrupts, then the rest. -/
theorem movesAt_modify_bind {f : σ → σ} {g : PUnit → EStateM ε σ β} {s : σ} (h : M s (f s))
    (hg : MovesAt M (g ⟨⟩) (f s)) : MovesAt M (modify f >>= g) s :=
  (Relation.ReflTransGen.single h).trans hg

/-- Taking steps of a relation that another one includes. -/
theorem Moves.mono {N : σ → σ → Prop} (h : Moves M m) (hMN : ∀ s t, M s t → N s t) : Moves N m :=
  fun s => Relation.ReflTransGen.mono hMN _ _ (h s)

theorem moves_pure (a : α) : Moves M (pure a : EStateM ε σ α) := fun _ => .refl

theorem moves_throw (e : ε) : Moves M (throw e : EStateM ε σ α) := fun _ => .refl

theorem moves_get : Moves M (get : EStateM ε σ σ) := fun _ => .refl

theorem moves_raiseIf (c : Bool) (e : ε) : Moves M (raiseIf c e) := by
  cases c with
  | true => exact moves_throw e
  | false => exact moves_pure ()

/-- A check, then the rest where it passes. -/
theorem movesAt_raiseIf_bind {c : Bool} {e : ε} {f : Unit → EStateM ε σ β} {s : σ}
    (h : c = false → MovesAt M (f ()) s) : MovesAt M (raiseIf c e >>= f) s := by
  cases c with
  | true => exact .refl
  | false => exact h rfl

theorem moves_ofExcept (x : Except ε α) : Moves M (ofExcept x : EStateM ε σ α) := by
  cases x with
  | ok a => exact moves_pure a
  | error e => exact moves_throw e

/-- A change of state that is one move. -/
theorem moves_modify {f : σ → σ} (h : ∀ s, M s (f s)) :
    Moves M (modify f : EStateM ε σ PUnit) := fun s => .single (h s)

/-- A change of state that is finitely many moves. -/
theorem moves_modifies {f : σ → σ} (h : ∀ s, Relation.ReflTransGen M s (f s)) :
    Moves M (modify f : EStateM ε σ PUnit) := h

theorem moves_bind {f : α → EStateM ε σ β} (hm : Moves M m) (hf : ∀ a, Moves M (f a)) :
    Moves M (m >>= f) := by
  intro s
  exact movesAt_bind (hm s) fun a t _ => hf a t

/-- Reading the state first: the rest may depend on the state it starts in. -/
theorem moves_get_bind {f : σ → EStateM ε σ β} (hf : ∀ s, MovesAt M (f s) s) :
    Moves M (get >>= f) := hf

theorem moves_ite {c : Prop} [Decidable c] {n : EStateM ε σ α} (hm : Moves M m) (hn : Moves M n) :
    Moves M (if c then m else n) := by
  split
  · exact hm
  · exact hn

theorem moves_forM_mem {f : α → EStateM ε σ PUnit} (xs : List α)
    (hf : ∀ a ∈ xs, Moves M (f a)) : Moves M (xs.forM f) := by
  induction xs with
  | nil => exact moves_pure _
  | cons x xs ih =>
      exact moves_bind (hf x List.mem_cons_self) fun _ =>
        ih fun a ha => hf a (List.mem_cons_of_mem x ha)

theorem moves_forM {f : α → EStateM ε σ PUnit} (hf : ∀ a, Moves M (f a)) (xs : List α) :
    Moves M (xs.forM f) := moves_forM_mem xs fun a _ => hf a

theorem moves_foldlM {f : β → α → EStateM ε σ β} (hf : ∀ b a, Moves M (f b a)) (xs : List α) :
    ∀ b, Moves M (xs.foldlM f b) := by
  induction xs with
  | nil => exact fun b => moves_pure b
  | cons x xs ih => exact fun b => moves_bind (hf b x) fun b' => ih b'

theorem moves_mapM {f : α → EStateM ε σ β} (hf : ∀ a, Moves M (f a)) (xs : List α) :
    Moves M (xs.mapM f) := by
  induction xs with
  | nil => exact moves_pure _
  | cons x xs ih =>
      rw [List.mapM_cons]
      exact moves_bind (hf x) fun y => moves_bind ih fun ys => moves_pure _

theorem moves_attempt (hm : Moves M m) : Moves M (attempt m) := by
  intro s
  rw [MovesAt, finalState_attempt]
  exact hm s

/-- A program on a part of the state takes the moves of the part. -/
theorem movesAt_zoom {τ : Type} {N : τ → τ → Prop} {part : σ → τ} {put : τ → σ → σ}
    {n : EStateM ε τ α} {s : σ} (hn : MovesAt N n (part s)) (hput : put (part s) s = s)
    (hstep : ∀ t t', N t t' → M (put t s) (put t' s)) : MovesAt M (zoom part put n) s := by
  rw [MovesAt, finalState_zoom]
  have hrun : ∀ t, Relation.ReflTransGen N (part s) t →
      Relation.ReflTransGen M (put (part s) s) (put t s) := by
    intro t h
    induction h with
    | refl => exact .refl
    | tail _ hlast ih => exact ih.tail (hstep _ _ hlast)
  have h := hrun _ hn
  rwa [hput] at h

/-- An invariant of the steps of a relation survives a run of them. -/
theorem reflTransGen_invariant {I : σ → Prop} (hI : ∀ s t, M s t → I s → I t) {s t : σ}
    (hrun : Relation.ReflTransGen M s t) (hs : I s) : I t := by
  induction hrun with
  | refl => exact hs
  | tail _ hstep ih => exact hI _ _ hstep ih

/-- A program keeps a property of the state, whether it returns or raises. -/
def Keeps (I : σ → Prop) (m : EStateM ε σ α) : Prop := Moves (fun s t => I s → I t) m

theorem keeps_modify {I : σ → Prop} {f : σ → σ} (h : ∀ s, I s → I (f s)) :
    Keeps I (modify f : EStateM ε σ PUnit) := moves_modify h

theorem Keeps.final {I : σ → Prop} (h : Keeps I m) {s : σ} (hs : I s) : I (finalState (m s)) :=
  reflTransGen_invariant (fun _ _ hst => hst) (h s) hs

theorem Keeps.of_ok {I : σ → Prop} (h : Keeps I m) {s t : σ} {a : α} (hrun : m s = .ok a t)
    (hs : I s) : I t := by
  have hfinal := h.final hs
  rw [hrun] at hfinal
  exact hfinal

/-- An invariant of the moves survives the program. -/
theorem moves_invariant {I : σ → Prop} (hm : Moves M m) (hI : ∀ s t, M s t → I s → I t) {s : σ}
    (hs : I s) : I (finalState (m s)) :=
  reflTransGen_invariant hI (hm s) hs

/-- From a state with `I` a program returns in a state with `Q`, or raises in one
    with `E`. -/
def Leads (I : σ → Prop) (m : EStateM ε σ α) (Q : α → σ → Prop) (E : σ → Prop) : Prop :=
  ∀ s, I s → match m s with
    | .ok a t => Q a t
    | .error _ t => E t

section Leading

variable {I : σ → Prop} {Q : α → σ → Prop} {R : β → σ → Prop} {E : σ → Prop}

theorem leads_pure {a : α} (h : ∀ s, I s → Q a s) : Leads I (pure a : EStateM ε σ α) Q E := h

theorem leads_throw {e : ε} (h : ∀ s, I s → E s) : Leads I (throw e : EStateM ε σ α) Q E := h

theorem leads_modify {f : σ → σ} {Q : PUnit → σ → Prop} (h : ∀ s, I s → Q ⟨⟩ (f s)) :
    Leads I (modify f : EStateM ε σ PUnit) Q E := h

theorem leads_bind {f : α → EStateM ε σ β} (hm : Leads I m Q E)
    (hf : ∀ a, Leads (Q a) (f a) R E) : Leads I (m >>= f) R E := by
  intro s hs
  have hone := hm s hs
  rw [bind_run]
  cases hrun : m s with
  | ok a t =>
      rw [hrun] at hone
      exact hf a t hone
  | error e t =>
      rw [hrun] at hone
      exact hone

/-- A check that may raise anywhere, then the rest. -/
theorem leads_raiseIf_bind {c : Bool} {e : ε} {f : Unit → EStateM ε σ β}
    {R : β → σ → Prop} (hE : ∀ s, I s → E s) (h : Leads I (f ()) R E) :
    Leads I (raiseIf c e >>= f) R E := by
  cases c with
  | true => exact hE
  | false => exact h

/-- Reading the state first. -/
theorem leads_get_bind {f : σ → EStateM ε σ β}
    (hf : ∀ s, Leads (fun t => t = s ∧ I s) (f s) R E) : Leads I (get >>= f) R E :=
  fun s hs => hf s s ⟨rfl, hs⟩

/-- Behind a read the state is the one that was read. -/
theorem leads_at (h : Leads I m Q E) (s : σ) : Leads (fun t => t = s ∧ I s) m Q E := by
  rintro t ⟨rfl, ht⟩
  exact h t ht

/-- Reading a state of which no more is known. -/
theorem leads_get_any {f : σ → EStateM ε σ β} (hf : ∀ s, Leads I (f s) R E) :
    Leads I (get >>= f) R E :=
  leads_get_bind fun s => leads_at (hf s) s

theorem leads_ofExcept {x : Except ε α} (hok : ∀ a s, x = .ok a → I s → Q a s)
    (hraised : ∀ s, I s → E s) : Leads I (ofExcept x) Q E := by
  intro s hs
  cases hx : x with
  | ok a => exact hok a s hx hs
  | error e => exact hraised s hs

theorem leads_mono {J : σ → Prop} {S : α → σ → Prop} (h : Leads I m Q E) (hI : ∀ s, J s → I s)
    (hQ : ∀ a s, Q a s → S a s) : Leads J m S E := by
  intro s hs
  have hrun := h s (hI s hs)
  cases hm : m s with
  | ok a t =>
      rw [hm] at hrun
      exact hQ a t hrun
  | error e t =>
      rw [hm] at hrun
      exact hrun

/-- Less may be asked of a state with an exception. -/
theorem leads_raised {F : σ → Prop} (h : Leads I m Q E) (hE : ∀ s, E s → F s) :
    Leads I m Q F := by
  intro s hs
  have hrun := h s hs
  cases hm : m s with
  | ok a t =>
      rw [hm] at hrun
      exact hrun
  | error e t =>
      rw [hm] at hrun
      exact hE t hrun

/-- What the first property shows of values that are not in the state. -/
theorem leads_of {p : Prop} (hp : ∀ s, I s → p) (h : p → Leads I m Q E) : Leads I m Q E :=
  fun s hs => h (hp s hs) s hs

/-- A loop with an accumulator: the invariant is indexed by what is done and what
    is left to do. -/
theorem leads_foldlM {f : β → α → EStateM ε σ β} {J : List α → β → σ → Prop}
    (hstep : ∀ x xs b, Leads (J (x :: xs) b) (f b x) (fun b' => J xs b') E) :
    ∀ (xs : List α) (b : β), Leads (J xs b) (xs.foldlM f b) (fun b' => J [] b') E := by
  intro xs
  induction xs with
  | nil => exact fun b => leads_pure fun _ h => h
  | cons x xs ih =>
      intro b
      rw [List.foldlM_cons]
      exact leads_bind (hstep x xs b) fun b' => ih b'

theorem leads_forM {f : α → EStateM ε σ PUnit} {J : List α → σ → Prop}
    (hstep : ∀ x xs, Leads (J (x :: xs)) (f x) (fun _ => J xs) E) :
    ∀ xs : List α, Leads (J xs) (xs.forM f) (fun _ => J []) E := by
  intro xs
  induction xs with
  | nil => exact leads_pure fun _ h => h
  | cons x xs ih => exact leads_bind (hstep x xs) fun _ => ih

/-- What a program keeps it leads from and to. -/
theorem Keeps.leads (h : Keeps I m) : Leads I m (fun _ => I) I := by
  intro s hs
  have hfinal := h.final hs
  cases hm : m s with
  | ok a t =>
      rw [hm] at hfinal
      exact hfinal
  | error e t =>
      rw [hm] at hfinal
      exact hfinal

/-- What holds however the program ends. -/
theorem Leads.final {S : σ → Prop} (h : Leads I m Q E) (hQ : ∀ a s, Q a s → S s)
    (hE : ∀ s, E s → S s) {s : σ} (hs : I s) : S (finalState (m s)) := by
  have hrun := h s hs
  cases hm : m s with
  | ok a t =>
      rw [hm] at hrun
      exact hQ a t hrun
  | error e t =>
      rw [hm] at hrun
      exact hE t hrun

end Leading

section Raising

variable {I : σ → Prop} {P : ε → Prop} {m : EStateM ε σ α}

/-- From a state with `I` a program raises no exception without `P`. -/
def RaisesOnly (I : σ → Prop) (P : ε → Prop) (m : EStateM ε σ α) : Prop :=
  ∀ s, I s → ∀ e t, m s = .error e t → P e

theorem raisesOnly_pure (a : α) : RaisesOnly I P (pure a : EStateM ε σ α) := by
  intro s _ e t h
  cases h

theorem raisesOnly_bind {f : α → EStateM ε σ β} (hm : RaisesOnly I P m) (hkeeps : Keeps I m)
    (hf : ∀ a, RaisesOnly I P (f a)) : RaisesOnly I P (m >>= f) := by
  intro s hs e t h
  rw [bind_run] at h
  cases hrun : m s with
  | ok a u =>
      rw [hrun] at h
      exact hf a u (hkeeps.of_ok hrun hs) e t h
  | error e' u =>
      rw [hrun] at h
      cases h
      exact hm s hs e _ hrun

theorem raisesOnly_get_bind {f : σ → EStateM ε σ β}
    (hf : ∀ s, I s → ∀ e t, f s s = .error e t → P e) : RaisesOnly I P (get >>= f) := hf

theorem raisesOnly_ofExcept {x : Except ε α} (h : ∀ e, x = .error e → P e) :
    RaisesOnly I P (ofExcept x : EStateM ε σ α) := by
  intro s _ e t hrun
  cases hx : x with
  | ok a =>
      rw [hx] at hrun
      cases hrun
  | error e' =>
      rw [hx] at hrun
      cases hrun
      exact h _ hx

theorem raisesOnly_forM {f : α → EStateM ε σ PUnit} {xs : List α}
    (h : ∀ x ∈ xs, RaisesOnly (fun _ => True) P (f x)) :
    RaisesOnly (fun _ => True) P (xs.forM f) := by
  induction xs with
  | nil => exact raisesOnly_pure PUnit.unit
  | cons x xs ih =>
      refine raisesOnly_bind (h x List.mem_cons_self) (fun s => ?_) fun _ =>
        ih fun y hy => h y (List.mem_cons_of_mem x hy)
      unfold MovesAt
      cases f x s <;> exact .single fun _ => trivial

end Raising

/-- What holds of the state a program returns in, decided by running it. -/
def decidableReturning {P : σ → Prop} [DecidablePred P] (m : EStateM ε σ Unit) (s : σ) :
    Decidable (∀ t, m s = .ok () t → P t) :=
  match m s with
  | .ok _ t => decidable_of_iff (P t)
      ⟨fun hp u hu => by
        cases hu
        exact hp, fun hall => hall t rfl⟩
  | .error _ _ => isTrue fun u hu => by cases hu

section Commuting

variable {g : σ → σ} {m : EStateM ε σ α}

/-- Change the state a run ends in. -/
def onState (g : σ → σ) : EStateM.Result ε σ α → EStateM.Result ε σ α
  | .ok a s => .ok a (g s)
  | .error e s => .error e (g s)

/-- A program that does not look at what `g` changes, and leaves it alone. -/
def Commutes (g : σ → σ) (m : EStateM ε σ α) : Prop := ∀ s, m (g s) = onState g (m s)

theorem commutes_pure (a : α) : Commutes g (pure a : EStateM ε σ α) := fun _ => rfl

theorem commutes_throw (e : ε) : Commutes g (throw e : EStateM ε σ α) := fun _ => rfl

theorem commutes_modify {f : σ → σ} (h : ∀ s, f (g s) = g (f s)) :
    Commutes g (modify f : EStateM ε σ PUnit) := by
  intro s
  rw [modify_run, h]
  rfl

theorem commutes_bind {f : α → EStateM ε σ β} (hm : Commutes g m) (hf : ∀ a, Commutes g (f a)) :
    Commutes g (m >>= f) := by
  intro s
  rw [bind_run, bind_run, hm s]
  cases m s with
  | ok a t => exact hf a t
  | error e t => rfl

/-- What a program reads is what it would have read without `g`. -/
theorem commutes_get_bind {f : σ → EStateM ε σ β} (hsame : ∀ s, f (g s) = f s)
    (hf : ∀ s, Commutes g (f s)) : Commutes g (get >>= f) := by
  intro s
  rw [bind_run_ok (get_run (g s)), bind_run_ok (get_run s), hsame s]
  exact hf s s

theorem commutes_ofExcept (x : Except ε α) : Commutes g (ofExcept x : EStateM ε σ α) := by
  cases x <;> exact fun _ => rfl

theorem commutes_foldlM {f : β → α → EStateM ε σ β} (hf : ∀ b a, Commutes g (f b a)) (xs : List α) :
    ∀ b, Commutes g (xs.foldlM f b) := by
  induction xs with
  | nil => exact fun b => commutes_pure b
  | cons x xs ih => exact fun b => commutes_bind (hf b x) ih

theorem commutes_forM {f : α → EStateM ε σ PUnit} (hf : ∀ a, Commutes g (f a)) (xs : List α) :
    Commutes g (xs.forM f) := by
  induction xs with
  | nil => exact commutes_pure _
  | cons x xs ih => exact commutes_bind (hf x) fun _ => ih

theorem commutes_mapM {f : α → EStateM ε σ β} (hf : ∀ a, Commutes g (f a)) (xs : List α) :
    Commutes g (xs.mapM f) := by
  induction xs with
  | nil => exact commutes_pure _
  | cons x xs ih =>
      rw [List.mapM_cons]
      exact commutes_bind (hf x) fun _ => commutes_bind ih fun _ => commutes_pure _

end Commuting

section Alongside

variable {R : σ → σ → Prop}

/-- Two runs that come to the same result or the same exception, in states
    that are related. -/
def Alongside (R : σ → σ → Prop) : EStateM.Result ε σ α → EStateM.Result ε σ α → Prop
  | .ok a s, .ok b t => a = b ∧ R s t
  | .error e s, .error d t => e = d ∧ R s t
  | _, _ => False

theorem Alongside.mono {S : σ → σ → Prop} (hRS : ∀ s t, R s t → S s t) :
    ∀ {r r' : EStateM.Result ε σ α}, Alongside R r r' → Alongside S r r'
  | .ok _ _, .ok _ _, h => ⟨h.1, hRS _ _ h.2⟩
  | .error _ _, .error _ _, h => ⟨h.1, hRS _ _ h.2⟩

/-- A loop whose steps run alongside. -/
theorem alongside_forM {f : α → EStateM ε σ PUnit}
    (hf : ∀ a s t, R s t → Alongside R (f a s) (f a t)) (xs : List α) :
    ∀ {s t : σ}, R s t → Alongside R (xs.forM f s) (xs.forM f t) := by
  induction xs with
  | nil => exact fun h => ⟨rfl, h⟩
  | cons x xs ih =>
      intro s t h
      have hone := hf x s t h
      rw [forM_cons_run, forM_cons_run, bind_run, bind_run]
      cases hs : f x s with
      | ok u s' =>
          cases ht : f x t with
          | ok v t' =>
              rw [hs, ht] at hone
              exact ih hone.2
          | error d t' =>
              rw [hs, ht] at hone
              exact hone.elim
      | error e s' =>
          cases ht : f x t with
          | ok v t' =>
              rw [hs, ht] at hone
              exact hone.elim
          | error d t' =>
              rw [hs, ht] at hone
              exact hone

end Alongside

end DataCrystal
