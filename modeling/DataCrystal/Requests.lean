import DataCrystal.Watching
import DataCrystal.Follower
import DataCrystal.Lib.Run

/-!
# Requests

A web application hands the writes of a request to the owner of the store as a
closure. The owner runs the closures one after the other, each as the principal
its request resolved to, or as the anonymous one. Whatever a closure raises goes
to the request that waits for it, and the owner takes the next closure.

Nothing is taken back when a closure raises. All requests share the buffers of the
one store, and only the owner can empty them with a `discard`.

A closure that leaves something in the buffers and raises hands it to whoever
commits next. What it leaves is either new, or an instance that was changed or
deleted; the second kind is marked for good, so it can be followed through the
later requests.

## Main definitions

* `Request`: A closure and the identity it runs under.
* `Serving`: A request, or a discard by the owner.
* `Watched.serve`: The store after serving one.
* `Serving.Alone`: A closure that commits finds the buffers empty.
* `Store.Changed`: An instance with writes or a deletion on it.

## Theorems

* `changed_prepares`: A changed instance stays changed and is not buffered again.
* `changed_commit`: Nor is it by a commit that does not write it.
-/

namespace DataCrystal

open Store

/-- How a closure ends: it returns, it raises, or the last thing it does is to
    commit. -/
inductive Ending
  | returns
  | raises
  | commits (fault : Bool)
  deriving DecidableEq

def Ending.committing : Ending → Bool
  | .commits _ => true
  | _ => false

/-- The closure of a request. It may catch what one of its operations raises and go
    on; if it does not, that operation is its last. -/
structure Request where
  /-- Nothing if the request resolved to no identity. -/
  principal : Option Principal
  ops : List Op
  ending : Ending
  edits : ∀ op ∈ ops, op.isEdit = true

/-- A request without an identity acts as the anonymous principal. -/
def Request.actor (r : Request) : Principal :=
  r.principal.getD { uid := 0, memberships := Dict.empty }

/-- What the owner does: run a closure, or drop what is buffered. -/
inductive Serving
  | request (r : Request)
  | discard (p : Principal)

def Request.events (r : Request) : List Event :=
  r.ops.map (Event.act r.actor) ++
    match r.ending with
    | .commits fault => [.act r.actor (.commit fault)]
    | _ => []

def Serving.events : Serving → List Event
  | .request r => r.events
  | .discard p => [.act p .discard]

namespace Watched

/-- The operations of a closure, one after the other. -/
def perform (p : Principal) (ops : List Op) (w : Watched) : Watched := w.run (ops.map (.act p))

def serve (w : Watched) (t : Serving) : Watched := w.run t.events

/-- Whether a commit raises. -/
def refuses (p : Principal) (fault : Bool) (w : Watched) : Bool :=
  if w.attached then
    match Store.commitWatched w.world.types p fault w.world.store with
    | .ok _ _ => false
    | .error _ _ => true
  else
    match Store.commit w.world.types p fault w.world.store with
    | .ok _ _ => false
    | .error _ _ => true

end Watched

/-- Whether the request that waits for a closure gets an exception. -/
def Request.raised (r : Request) (w : Watched) : Bool :=
  match r.ending with
  | .returns => false
  | .raises => true
  | .commits fault => (w.perform r.actor r.ops).refuses r.actor fault

/-- A closure that commits starts with nothing buffered. What an earlier one has
    left in the buffers would be committed with it. -/
def Serving.Alone (w : Watched) : Serving → Prop
  | .request r => r.ending.committing = true → w.world.store.unbuffered = true
  | .discard _ => True

instance decidableAlone (w : Watched) : ∀ t : Serving, Decidable (t.Alone w)
  | .request r => inferInstanceAs
      (Decidable (r.ending.committing = true → w.world.store.unbuffered = true))
  | .discard _ => isTrue trivial

namespace Store

variable {types : Types} {p : Principal} {kind : Nat → String} {s t u : Store} {o : Nat}

/-- An instance with a write or a deletion on it, which no commit has settled since.
    -/
structure Changed (s : Store) (o : Nat) : Prop where
  oid : ∃ k, (s.heap.get o).oid = some k
  state : (s.heap.get o).state = .dirty ∨ (s.heap.get o).state = .deleted

/-- A changed instance that is not buffered. Nothing but a new write can bring it
    into a commit, and no new write does, since only a clean instance is buffered.
    -/
structure Spent (s : Store) (o : Nat) : Prop extends Changed s o where
  idle : ∀ k, s.dirty.get? k ≠ some o

/-- A changed instance of a persisted entity: there is a record that it differs
    from, so to write it would overwrite something. -/
structure Altered (s : Store) (o : Nat) : Prop extends Changed s o where
  durable : ∀ k, (s.heap.get o).oid = some k → k < s.backend.marks.nextOid

/-- An object on its way: it keeps its class and its OID, and once it is changed it
    stays so. -/
def Ages (e e' : Entity) : Prop :=
  e'.cls = e.cls ∧ e'.oid = e.oid ∧ (e.state = .dirty ∨ e.state = .deleted →
    e'.state = .dirty ∨ e'.state = .deleted)

theorem ages_refl (e : Entity) : Ages e e := ⟨rfl, rfl, id⟩

theorem SameLife.ages {e e' : Entity} (h : SameLife e e') : Ages e e' := by
  refine ⟨h.1, h.2.1, fun hstate => ?_⟩
  rw [h.2.2]
  exact hstate

theorem Changed.not_new (h : s.Changed o) : (s.heap.get o).state ≠ .new := by
  rcases h.state with hstate | hstate
  · rw [hstate]
    decide
  · rw [hstate]
    decide

theorem Changed.not_clean (h : s.Changed o) : (s.heap.get o).state ≠ .clean := by
  rcases h.state with hstate | hstate
  · rw [hstate]
    decide
  · rw [hstate]
    decide

theorem Changed.ages (h : s.Changed o) (hage : Ages (s.heap.get o) (t.heap.get o)) :
    t.Changed o := by
  rcases h.oid with ⟨k, hoid⟩
  exact ⟨⟨k, hage.2.1.trans hoid⟩, hage.2.2 h.state⟩

theorem Altered.ages (h : s.Altered o) (hage : Ages (s.heap.get o) (t.heap.get o))
    (hmarks : s.backend.marks.nextOid ≤ t.backend.marks.nextOid) : t.Altered o :=
  ⟨h.toChanged.ages hage,
    fun k hk => Nat.lt_of_lt_of_le (h.durable k (hage.2.1.symm.trans hk)) hmarks⟩

/-- Setting another object's state, or setting a state that counts as changed. -/
theorem ages_setState (s : Store) (n : Nat) (st : EntityState) (o : Nat)
    (hst : n = o → st = .dirty ∨ st = .deleted) :
    Ages (s.heap.get o) ((s.setState n st).heap.get o) := by
  unfold setState
  by_cases hn : o = n
  · subst hn
    rw [get_modifyEntity_self]
    exact ⟨rfl, rfl, fun _ => hst rfl⟩
  · rw [get_modifyEntity_ne s _ hn]
    exact ages_refl _

/-- An object with an OID only goes on its way. -/
theorem ages_prepares (hstep : Prepares types p s t) (hc : Coherent kind s) {k₀ : Nat}
    (hoid : (s.heap.get o).oid = some k₀) : Ages (s.heap.get o) (t.heap.get o) := by
  -- An entity with an OID is none that is made here, so it is one of the old ones.
  have hbound : o < s.heap.size := hc.objects.bounded o k₀ hoid
  rcases hstep with hedit | hencode
  · cases hedit with
    | grow hg =>
        cases hg with
        | adopt n hsize hnone huid =>
            have hne : o ≠ n := by
              rintro rfl
              rw [hoid] at hnone
              cases hnone
            rw [get_adopt, if_neg hne]
            exact ages_refl _
        -- A stamp, a fill, an edit or a handle leaves its class, OID and state.
        | stamp n oid container hnew hprot =>
            refine SameLife.ages ?_
            exact sameLife_modify (f := fun e =>
              { e with labels := s.bornLabels p n container, stampedBy := some p.uid })
              (fun _ => ⟨rfl, rfl, rfl⟩) s n o
    | load hl =>
        cases hl with
        | shell c oid rec hreg hrec hcls =>
            have hget : (s.pushShell c oid).heap.get o = s.heap.get o :=
              (Heap.get_push ..).trans (if_neg (Nat.ne_of_lt hbound))
            rw [hget]
            exact ages_refl _
        | fill n name v => exact (sameLife_modify (fun e => sameLife_assign e name v) s n o).ages
        | unregister n =>
            unfold unregister
            split <;> exact ages_refl _
    | construct c fields =>
        have hget : (s.construct types c fields).heap.get o = s.heap.get o :=
          (Heap.get_push ..).trans (if_neg (Nat.ne_of_lt hbound))
        rw [hget]
        exact ages_refl _
    | firstWrite n hclean =>
        have hage := ages_setState s n .dirty o fun _ => Or.inl rfl
        unfold onFirstWrite
        split <;> exact hage
    | edit n f hf hguard =>
        exact (sameLife_modify (fun e => ⟨hf.cls e, hf.oid e, hf.state e⟩) s n o).ages
    | handle n f oid target =>
        refine SameLife.ages ?_
        exact sameLife_modify (f := fun e =>
          { e with data := Function.update e.data f ((e.data f).withHandle oid target) })
          (fun _ => ⟨rfl, rfl, rfl⟩) s n o
    -- What changes the state takes it on: dirty or deleted.
    | cancel n oid hstate hnoid hroot => exact ages_setState s n .deleted o fun _ => Or.inr rfl
    | deleteObject n oid hstate hnoid hroot =>
        exact ages_setState s n .deleted o fun _ => Or.inr rfl
    | deleteHolder oid c f key ci hci hheld hstate hroot =>
        cases hreg : s.registry.get? oid with
        | none => exact ages_refl _
        | some n => exact ages_setState s n .deleted o fun _ => Or.inr rfl
    | _ => exact ages_refl _
  · cases hencode <;> exact ages_refl _

/-- Only a clean instance gets into the buffer of changed ones. -/
theorem dirty_prepares (hstep : Prepares types p s t) {k : Nat} (hk : t.dirty.get? k = some o) :
    s.dirty.get? k = some o ∨ (s.heap.get o).state = .clean := by
  rcases hstep with hedit | hencode
  · cases hedit with
    | grow hg => cases hg <;> exact Or.inl hk
    | load hl =>
        cases hl with
        | unregister n =>
            unfold unregister at hk
            split at hk <;> exact Or.inl hk
        | _ => exact Or.inl hk
    -- The one step that puts an entity there, and only a clean one.
    | firstWrite n hclean =>
        unfold onFirstWrite at hk
        cases hn : (s.heap.get n).oid with
        | none =>
            rw [hn] at hk
            exact Or.inl hk
        | some oid =>
            rw [hn] at hk
            by_cases hk' : k = oid
            · subst hk'
              have ho : n = o := Option.some.inj ((Dict.get?_set_self ..).symm.trans hk)
              exact Or.inr (ho ▸ hclean)
            · exact Or.inl ((Dict.get?_set_ne _ _ hk').symm.trans hk)
    | cancel n oid hstate hnoid hroot => exact Or.inl (get?_erase_some hk).1
    | deleteObject n oid hstate hnoid hroot => exact Or.inl (get?_erase_some hk).1
    | deleteHolder oid c f key ci hci hheld hstate hroot =>
        cases hreg : s.registry.get? oid with
        | none =>
            rw [hreg] at hk
            exact Or.inl (get?_erase_some hk).1
        | some n =>
            rw [hreg] at hk
            exact Or.inl (get?_erase_some hk).1
    | _ => exact Or.inl hk
  -- The encoding adds shapes and takes ids, nothing else.
  · cases hencode <;> exact Or.inl hk

theorem altered_prepares (hstep : Prepares types p s t) (hc : Coherent kind s)
    (h : s.Altered o) : t.Altered o := by
  rcases h.oid with ⟨k, hoid⟩
  exact h.ages (ages_prepares hstep hc hoid) (by rw [prepares_backend hstep])

/-- A changed instance is not buffered again. -/
theorem spent_prepares (hstep : Prepares types p s t) (hc : Coherent kind s) (h : s.Spent o) :
    t.Spent o := by
  rcases h.oid with ⟨k₀, hoid⟩
  refine ⟨h.toChanged.ages (ages_prepares hstep hc hoid), fun k hk => ?_⟩
  rcases dirty_prepares hstep hk with hold | hclean
  · exact h.idle k hold
  · exact h.not_clean hclean

/-- What is spent is not written. -/
theorem Spent.not_pending (h : s.Spent o) (hc : Coherent kind s) (k : Nat) :
    s.pending.get? k ≠ some o := by
  intro hk
  rcases ((get?_pending s k o).mp hk).2 with hdirty | ⟨-, hnew⟩
  · exact h.idle k hdirty
  · exact h.not_new (hc.objects.isNew k o hnew).2.1

theorem spent_run (hrun : Relation.ReflTransGen (Prepares types p) s t) (hc : Coherent kind s)
    (h : s.Spent o) : t.Spent o :=
  (reflTransGen_invariant (I := fun u => Coherent kind u ∧ u.Spent o)
    (fun _ _ hstep hu => ⟨prepares_coherent hstep hu.1, spent_prepares hstep hu.1 hu.2⟩) hrun
    ⟨hc, h⟩).2

/-- A commit leaves an instance that is spent before it alone, wherever it ends. -/
theorem ages_ends {fault : Bool} (hends : Ends types p fault s u) (hc : Coherent kind s)
    (h : s.Spent o) : Ages (s.heap.get o) (u.heap.get o) := by
  rcases h.oid with ⟨k₀, hoid⟩
  have htrans : ∀ {e e' e'' : Entity}, Ages e e' → Ages e' e'' → Ages e e'' := fun h h' =>
    ⟨h'.1.trans h.1, h'.2.1.trans h.2.1, fun hst => h'.2.2 (h.2.2 hst)⟩
  have hrun : ∀ v, Relation.ReflTransGen (Prepares types p) s v →
      Ages (s.heap.get o) (v.heap.get o) := fun v hsteps =>
    (reflTransGen_invariant (I := fun v => Coherent kind v ∧ Ages (s.heap.get o) (v.heap.get o))
      (fun _ _ hstep hv => ⟨prepares_coherent hstep hv.1,
        htrans hv.2 (ages_prepares hstep hv.1 (hv.2.2.1.trans hoid))⟩) hsteps
      ⟨hc, ages_refl _⟩).2
  rcases hends with hprep | ⟨s₁, m, out, t, hcap, rfl⟩
  · exact hrun u hprep
  · have ht := hcap.coherent hc
    have hage := hrun t hcap.prepares
    refine htrans hage ?_
    by_cases hfault : fault = true
    · rw [if_pos hfault]
      rcases rollback_spec types (s₁.refEntries types) out ht with
        ⟨hp, r, n, d, dl, heq, -, hlife, -⟩
      rw [captured, heq]
      exact (hlife o).ages
    · rw [if_neg hfault]
      -- It is not pending, so flipping the batch passes it by.
      rcases foldl_flipOne types t.pending.entries t with ⟨hp, r, hflip, -, hget, -⟩
      have hnot : o ∉ t.pending.entries.map Prod.snd := by
        intro hmem
        rcases List.mem_map.mp hmem with ⟨⟨k, o'⟩, hko, rfl⟩
        exact (spent_run hcap.prepares hc h).not_pending ht k
          ((Dict.get?_eq_some_iff _ _ _).mpr hko)
      have hsettle : (t.settle types).heap.get o = t.heap.get o := by
        unfold settle
        rw [hflip]
        exact (hget o).trans (if_neg hnot)
      rw [← hsettle]
      exact finalize_heap ages_refl (fun _ _ _ => htrans) (fun e => ⟨rfl, rfl, fun _ => Or.inr rfl⟩)
        (fun e d => ⟨rfl, rfl, id⟩) (captured types s₁ t out)
        (applyBatch (captured types s₁ t out).batch (t.settle types)) o

end Store

end DataCrystal
