import DataCrystal.Phases

/-!
# What a Load Leaves Alone

A load makes shells and fills them, and takes the shells it made back when it
cannot fill one. Taken step by step it could take any object out of the registry;
taken as a whole it takes none out that was there before. The invariant on the way
is that a shell stands under an OID nothing was registered under when the load
began.

## Main definitions

* `Loaded`: A load and nothing else lies between two stores.

## Theorems

* `loadOid_loaded`: A load that returns or raises.
* `loadOid_registered`: What a load returns is registered under the OID.
-/

namespace DataCrystal

namespace Store

variable {types : Types} {s t u : Store}

/-- A load changes objects and the registry. What was there before keeps its class,
    OID and state, and stays registered; a shell stands under an OID that was free.
    Objects that were there before are left as they were. -/
structure Loaded (s t : Store) : Prop where
  frame : ∃ h r, t = { s with heap := h, registry := r }
  size : s.heap.size ≤ t.heap.size
  old : ∀ o, o < s.heap.size ∨ t.heap.size ≤ o → SameLife (s.heap.get o) (t.heap.get o)
  kept : ∀ k o, s.registry.get? k = some o → t.registry.get? k = some o
  fresh : ∀ k o, t.registry.get? k = some o → s.registry.get? k = some o ∨
    s.heap.size ≤ o ∧ o < t.heap.size ∧ (t.heap.get o).oid = some k
  shells : ∀ o, s.heap.size ≤ o → o < t.heap.size → (t.heap.get o).state = .clean ∧
    ∃ k, (t.heap.get o).oid = some k ∧ s.registry.get? k = none
  same : ∀ o < s.heap.size, t.heap.get o = s.heap.get o
  bound : ∀ o, s.heap.size ≤ o → o < t.heap.size → (t.heap.get o).bound = true

theorem loaded_refl (s : Store) : Loaded s s where
  frame := ⟨s.heap, s.registry, rfl⟩
  size := le_rfl
  old _ _ := ⟨rfl, rfl, rfl⟩
  kept _ _ h := h
  fresh _ _ h := Or.inl h
  shells o hle hlt := absurd hlt (by omega)
  same _ _ := rfl
  bound o hle hlt := absurd hlt (by omega)

/-- Filling a field binds and unbinds nothing. -/
theorem bound_assign (t : Store) (o : Nat) (name : String) (v : Val LiveRef) (n : Nat) :
    ((t.modifyEntity o fun e => e.assign name v).heap.get n).bound = (t.heap.get n).bound := by
  rw [get_modifyEntity]
  by_cases hn : n = o
  · rw [if_pos hn, hn]
    unfold Entity.assign
    split <;> rfl
  · rw [if_neg hn]

theorem Loaded.step (h : Loaded s t) (hstep : Fills types s.heap.size t u) : Loaded s u := by
  rcases h with ⟨⟨hp, r, hframe⟩, hsize, hold, hkept, hfresh, hshells, hsame, hbound⟩
  cases hstep with
  | shell c oid rec hreg hrec hcls =>
      have hget : ∀ o, o ≠ t.heap.size → (t.pushShell c oid).heap.get o = t.heap.get o :=
        fun o ho => (Heap.get_push ..).trans (if_neg ho)
      have hself : (t.pushShell c oid).heap.get t.heap.size =
          { cls := c, oid := some oid, state := .clean, hydrated := true } :=
        (Heap.get_push ..).trans (if_pos rfl)
      -- An OID that is registered now was not free for the new shell.
      have hfree : s.registry.get? oid = none := by
        cases hs : s.registry.get? oid with
        | none => rfl
        | some o => exact absurd ((hkept oid o hs).symm.trans hreg) (by simp)
      refine ⟨⟨_, _, by rw [hframe]; rfl⟩, Nat.le_succ_of_le hsize, fun o ho => ?_,
        fun k o hk => ?_, fun k o hk => ?_, fun o hle hlt => ?_, fun o ho => ?_,
        fun o hle hlt => ?_⟩
      · have ho' : o < s.heap.size ∨ t.heap.size + 1 ≤ o := ho
        rw [hget o (by omega)]
        exact hold o (by omega)
      · have hne : k ≠ oid := by
          rintro rfl
          rw [hfree] at hk
          cases hk
        exact (Dict.get?_set_ne _ _ hne).trans (hkept k o hk)
      · by_cases hne : k = oid
        · subst hne
          have ho : t.heap.size = o := Option.some.inj ((Dict.get?_set_self ..).symm.trans hk)
          subst ho
          exact Or.inr ⟨hsize, Nat.lt_succ_self _, congrArg Entity.oid hself⟩
        · have hk' : t.registry.get? k = some o := (Dict.get?_set_ne _ _ hne).symm.trans hk
          rcases hfresh k o hk' with hs | ⟨hle, hlt, hoid⟩
          · exact Or.inl hs
          · rw [hget o (by omega)]
            exact Or.inr ⟨hle, Nat.lt_succ_of_lt hlt, hoid⟩
      · by_cases ho : o = t.heap.size
        · subst ho
          rw [hself]
          exact ⟨rfl, oid, rfl, hfree⟩
        · rw [hget o ho]
          have hlt' : o < t.heap.size + 1 := hlt
          exact hshells o hle (by omega)
      · rw [hget o (by omega)]
        exact hsame o ho
      · by_cases ho : o = t.heap.size
        · rw [ho, hself]
        · rw [hget o ho]
          have hlt' : o < t.heap.size + 1 := hlt
          exact hbound o hle (by omega)
  | fill o name v ho =>
      have hlife := sameLife_modify (f := fun e => e.assign name v)
        (fun e => sameLife_assign e name v) t o
      refine ⟨⟨_, r, by rw [hframe]; rfl⟩, hsize, fun n hn => ?_, hkept, fun k n hk => ?_,
        fun n hle hlt => ?_, fun n hn => ?_, fun n hle hlt => ?_⟩
      · exact ⟨(hlife n).1.trans (hold n hn).1, (hlife n).2.1.trans (hold n hn).2.1,
          (hlife n).2.2.trans (hold n hn).2.2⟩
      · rcases hfresh k n hk with hs | ⟨hle, hlt, hoid⟩
        · exact Or.inl hs
        · exact Or.inr ⟨hle, hlt, (hlife n).2.1.trans hoid⟩
      · rcases hshells n hle hlt with ⟨hstate, k, hoid, hnone⟩
        exact ⟨(hlife n).2.2.trans hstate, k, (hlife n).2.1.trans hoid, hnone⟩
      · exact (get_modifyEntity_ne t _ (by omega)).trans (hsame n hn)
      · rw [bound_assign]
        exact hbound n hle hlt

/-- Taking shells back leaves what was registered before the load. -/
theorem Loaded.unregistered (h : Loaded s t) (os : List Nat)
    (hos : ∀ o ∈ os, s.heap.size ≤ o ∧ o < t.heap.size) : Loaded s (os.foldl unregister t) := by
  induction os generalizing t with
  | nil => exact h
  | cons o os ih =>
      rcases h.shells o (hos o List.mem_cons_self).1 (hos o List.mem_cons_self).2 with
        ⟨-, k, hoid, hnone⟩
      have hone : t.unregister o = { t with registry := t.registry.erase k } := by
        unfold unregister
        rw [hoid]
      rw [List.foldl_cons, hone]
      refine ih ?_ fun n hn => hos n (List.mem_cons_of_mem _ hn)
      rcases h.frame with ⟨hp, r, hframe⟩
      refine ⟨⟨_, _, by rw [hframe]⟩, h.size, h.old, fun k' n hk => ?_, fun k' n hk => ?_,
        h.shells, h.same, h.bound⟩
      · have hne : k' ≠ k := by
          rintro rfl
          rw [hnone] at hk
          cases hk
        exact (Dict.get?_erase_ne _ hne).trans (h.kept k' n hk)
      · exact h.fresh k' n (get?_erase_some hk).1

theorem loaded_of_fills (h : Relation.ReflTransGen (Fills types s.heap.size) s t) : Loaded s t :=
  reflTransGen_invariant (fun _ _ hstep hu => hu.step hstep) h (loaded_refl s)

theorem Loaded.unregisterFrom (h : Loaded s t) : Loaded s (t.unregisterFrom s.heap.size) := by
  refine h.unregistered _ fun o ho => ?_
  rw [List.mem_range'_1] at ho
  have hle := h.size
  omega

/-- The steps of a load before it returns or takes its shells back. -/
theorem moves_shells (oid fuel start : Nat) : Moves (Fills types start)
    (do let _ ← link types true oid
        fillShells types fuel start) :=
  moves_bind (moves_link true oid) fun _ => moves_fillShells _ le_rfl

/-- A load, whether it returns or raises. -/
theorem loadOid_loaded (types : Types) (oid : Nat) (s : Store) :
    Loaded s (finalState (loadOid types oid s)) := by
  rw [loadOid, bind_run_ok (get_run s)]
  cases s.registry.get? oid with
  | some o => exact (loaded_refl s)
  | none =>
      dsimp only
      rw [materializeGraph, bind_run_ok (get_run s), bind_run]
      have hfills := @moves_shells types oid (s.backend.objects.entries.length + 1)
        s.heap.size s
      rw [attempt]
      cases hrun : (do
          let _ ← link types true oid
          fillShells types (s.backend.objects.entries.length + 1) s.heap.size : M Unit) s with
      | ok u t =>
          rw [MovesAt, hrun] at hfills
          exact (loaded_of_fills hfills)
      | error e t =>
          rw [MovesAt, hrun] at hfills
          exact (loaded_of_fills hfills).unregisterFrom

/-- The first object of a load is made under its OID. -/
theorem link_registered {oid : Nat} {r : LiveRef} (hreg : s.registry.get? oid = none)
    (h : link types true oid s = .ok r t) : t.registry.get? oid = some s.heap.size := by
  rw [link, bind_run_ok (get_run s)] at h
  cases hrec : s.backend.objects.get? oid with
  | none => simp [hreg, hrec, throw_run] at h
  | some rec =>
      simp only [hreg, hrec] at h
      rcases bind_ok_iff.mp h with ⟨c, t₁, hcls, h⟩
      rw [← (tiForCid_ok hcls).1] at h
      simp only [Bool.not_true, Bool.false_and, Bool.false_eq_true, if_false,
        bind_run_ok (modify_run _ s), pure_run, EStateM.Result.ok.injEq] at h
      rw [← h.2]
      exact Dict.get?_set_self ..

/-- A load on its way takes nothing out of the registry. -/
theorem Fills.kept {start k o : Nat} (h : Fills types start t u)
    (hk : t.registry.get? k = some o) : u.registry.get? k = some o := by
  cases h with
  | fill n name v hn => exact hk
  | shell c oid rec hreg hrec hcls =>
      have hne : k ≠ oid := by
        rintro rfl
        rw [hreg] at hk
        cases hk
      exact (Dict.get?_set_ne _ _ hne).trans hk

/-- What a load returns is the registered instance. -/
theorem loadOid_registered {oid o : Nat} (h : loadOid types oid s = .ok o t) :
    t.registry.get? oid = some o := by
  rw [loadOid, bind_run_ok (get_run s)] at h
  cases hreg : s.registry.get? oid with
  | some n =>
      simp only [hreg, pure_run, EStateM.Result.ok.injEq] at h
      rw [← h.1, ← h.2, hreg]
  | none =>
      simp only [hreg] at h
      rw [materializeGraph, bind_run_ok (get_run s)] at h
      rcases bind_ok_iff.mp h with ⟨r, t₁, hattempt, h⟩
      cases r with
      | error e =>
          rcases bind_ok_iff.mp h with ⟨_, _, _, h⟩
          cases h
      | ok u =>
          cases h
          rcases bind_ok_iff.mp (attempt_ok hattempt) with ⟨_, t₀, hlink, hfill⟩
          -- The shells made after the first one leave it where it is.
          refine reflTransGen_invariant (I := fun u => u.registry.get? oid = some s.heap.size)
            (fun u v hstep hu => hstep.kept hu) ((moves_fillShells _ le_rfl t₀).of_ok hfill)
            (link_registered hreg hlink)

end Store

end DataCrystal
