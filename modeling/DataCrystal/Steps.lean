import DataCrystal.Runs

/-!
# The Steps of the Operations

What the operations do to a store, as a relation with one constructor for each
elementary change and its guards. Every operation but a commit and a discard is
shown to take such steps and no others, wherever it stops, so an invariant of
the store is checked once per elementary change and not once per operation.

The steps come in layers. `Grow` is what discovery does, `Load` what a load
does, `Ensures` what building an index on first use does; `Edit` includes them.

Not every invariant survives each single step of a walk or a load: an entity is
adopted before it is stamped, and a load that fails takes its shells back. So what
an operation does is proved once for any relation that `Hosts` the quiet steps
and walks and loads as a whole, and `Edit` is one such relation.

## Main definitions

* `SameIdentity`: A change of an object that leaves what it is alone.
* `Grow`, `Load`, `Ensures`: The steps of discovery, loading and indexing.
* `Edit`: The steps of every operation.
* `Calm`, `Quiet`: The steps that buffer no entity, and of these no deletion.
* `HostsCalm`, `Hosts`, `HostsEdits`, `HostsWrites`: Relations with room for an operation.
* `Op.isEdit`: An operation that only buffers.

## Theorems

* `moves_registerGraph`, `moves_loadOid`, `moves_ensureIndex`: The layers.
* `hosts_op`: Every operation that only buffers, by any relation that hosts it.
* `moves_op`: Every operation that only buffers takes `Edit` steps.
-/

namespace DataCrystal

/-- A change of an object that leaves its class, its OID and its place in the
    lifecycle alone. -/
structure SameIdentity (f : Entity → Entity) : Prop where
  cls : ∀ e, (f e).cls = e.cls
  oid : ∀ e, (f e).oid = e.oid
  state : ∀ e, (f e).state = e.state
  stampedBy : ∀ e, (f e).stampedBy = e.stampedBy
  hydrated : ∀ e, (f e).hydrated = e.hydrated

/-- Building or loading the indexes of a class on first use. -/
inductive Ensures (types : Types) (b : Backend) (lineage : String → Lineage) (m : IndexManager) :
    IndexManager → Prop
  | loaded (c : String) (ci : ClassIndexes) (hnone : m.byCls.get? c = none)
      (hload : m.cached types c = .ok (some ci)) : Ensures types b lineage m (m.setCls c ci)
  | built (c : String) (ci : ClassIndexes) (hnone : m.byCls.get? c = none)
      (hload : m.cached types c = .ok none)
      (hbuild : buildClassIndexes (types.info c) (lineage c) b.scanType = .ok ci) :
      Ensures types b lineage m (m.setCls c ci)

namespace Store

/-- The steps of discovery: an entity is given an OID and waits in the buffer of the
    new ones, and a protected one is stamped with the labels it is born with. -/
inductive Grow (types : Types) (p : Principal) (s : Store) : Store → Prop
  | adopt (o : Nat) (hsize : o < s.heap.size) (hoid : (s.heap.get o).oid = none)
      (huid : s.isProtected types o = true → p.uid ≠ 0) : Grow types p s (s.adopt o)
  | stamp (o oid : Nat) (container : Option Nat) (hnew : s.new.get? oid = some o)
      (hprot : s.isProtected types o = true) :
      Grow types p s (s.stampPermLabels p o oid container)

/-- The steps of a load: a shell is made and registered, a field is filled behind
    the write hook, and a load that raises takes the registration back. -/
inductive Load (types : Types) (s : Store) : Store → Prop
  | shell (c : String) (oid : Nat) (rec : StoredRecord) (hreg : s.registry.get? oid = none)
      (hrec : s.backend.objects.get? oid = some rec) (hcls : s.typenameByCid rec.cid = some c) :
      Load types s (s.pushShell c oid)
  | fill (o : Nat) (name : String) (v : Val LiveRef) :
      Load types s (s.modifyEntity o fun e => e.assign name v)
  | unregister (o : Nat) : Load types s (s.unregister o)

/-- The steps of a load on its way. It fills the objects it makes, which stand from
    `start` on. -/
inductive Fills (types : Types) (start : Nat) (s : Store) : Store → Prop
  | shell (c : String) (oid : Nat) (rec : StoredRecord) (hreg : s.registry.get? oid = none)
      (hrec : s.backend.objects.get? oid = some rec) (hcls : s.typenameByCid rec.cid = some c) :
      Fills types start s (s.pushShell c oid)
  | fill (o : Nat) (name : String) (v : Val LiveRef) (ho : start ≤ o) :
      Fills types start s (s.modifyEntity o fun e => e.assign name v)

/-- The steps that buffer nothing and leave the root alone. They build indexes, make
    objects, change what is buffered or never stored, and forget instances nobody
    holds. -/
inductive Calm (types : Types) (s : Store) : Store → Prop
  | ensures {m : IndexManager} (h : Ensures types s.backend s.lineageFor s.index m) :
      Calm types s { s with index := m }
  | reverse : Calm types s
      { s with index := s.index.ensureReverse s.backend (s.typeRows.map Prod.fst) }
  | construct (c : String) (fields : List (String × Val LiveRef)) :
      Calm types s (s.construct types c fields)
  | edit (o : Nat) (f : Entity → Entity) (hf : SameIdentity f)
      (h : (s.heap.get o).state ≠ .clean ∨ (s.heap.get o).bound = false) :
      Calm types s (s.modifyEntity o f)
  | handle (o : Nat) (f : String) (oid : Nat) (target : Option Nat) :
      Calm types s (s.modifyEntity o fun e =>
        { e with data := Function.update e.data f ((e.data f).withHandle oid target) })
  | upserts (d : Dict (String × String × Key) Nat)
      (hd : ∀ k o, d.get? k = some o → s.pendingUpserts.get? k = some o ∨ o < s.heap.size) :
      Calm types s { s with pendingUpserts := d }
  | forget (oid : Nat) (hfree : s.holds oid = false) :
      Calm types s { s with registry := s.registry.erase oid }

/-- The steps that buffer no entity and leave the root alone: the calm ones, and the
    deletions that need no instance at hand. -/
inductive Quiet (types : Types) (s : Store) : Store → Prop
  | calm {t : Store} (h : Calm types s t) : Quiet types s t
  | cancel (o oid : Nat) (hstate : (s.heap.get o).state = .new)
      (hoid : (s.heap.get o).oid = some oid ∨ s.registry.get? oid = some o)
      (hroot : s.rootOid ≠ some oid) : Quiet types s (s.cancelInsert o oid)
  | deleteHolder (oid : Nat) (c f : String) (key : Key) (ci : ClassIndexes)
      (hci : s.index.byCls.get? c = some ci) (hheld : ci.holder f key = some oid)
      (hstate : ∀ o, s.registry.get? oid = some o → (s.heap.get o).state ≠ .new)
      (hroot : s.rootOid ≠ some oid) : Quiet types s (s.bufferDelete (s.registry.get? oid) oid c)

/-- The steps of the operations that only buffer. Every operation but a commit and a
    discard is a chain of them, so an invariant is shown step by step. -/
inductive Edit (types : Types) (p : Principal) (s : Store) : Store → Prop
  | grow {t : Store} (h : Grow types p s t) : Edit types p s t
  | load {t : Store} (h : Load types s t) : Edit types p s t
  | ensures {m : IndexManager} (h : Ensures types s.backend s.lineageFor s.index m) :
      Edit types p s { s with index := m }
  | reverse : Edit types p s
      { s with index := s.index.ensureReverse s.backend (s.typeRows.map Prod.fst) }
  | construct (c : String) (fields : List (String × Val LiveRef)) :
      Edit types p s (s.construct types c fields)
  | firstWrite (o : Nat) (h : (s.heap.get o).state = .clean) : Edit types p s (s.onFirstWrite o)
  | edit (o : Nat) (f : Entity → Entity) (hf : SameIdentity f)
      (h : (s.heap.get o).state ≠ .clean ∨ (s.heap.get o).bound = false) :
      Edit types p s (s.modifyEntity o f)
  | handle (o : Nat) (f : String) (oid : Nat) (target : Option Nat) :
      Edit types p s (s.modifyEntity o fun e =>
        { e with data := Function.update e.data f ((e.data f).withHandle oid target) })
  | cancel (o oid : Nat) (hstate : (s.heap.get o).state = .new)
      (hoid : (s.heap.get o).oid = some oid ∨ s.registry.get? oid = some o)
      (hroot : s.rootOid ≠ some oid) : Edit types p s (s.cancelInsert o oid)
  | deleteObject (o oid : Nat) (hstate : (s.heap.get o).state = .clean ∨ (s.heap.get o).state = .dirty)
      (hoid : (s.heap.get o).oid = some oid) (hroot : s.rootOid ≠ some oid) :
      Edit types p s (s.bufferDelete (some o) oid (s.heap.get o).cls)
  | deleteHolder (oid : Nat) (c f : String) (key : Key) (ci : ClassIndexes)
      (hci : s.index.byCls.get? c = some ci) (hheld : ci.holder f key = some oid)
      (hstate : ∀ o, s.registry.get? oid = some o → (s.heap.get o).state ≠ .new)
      (hroot : s.rootOid ≠ some oid) : Edit types p s (s.bufferDelete (s.registry.get? oid) oid c)
  | assignRoot (o oid : Nat) (hnew : s.new.get? oid = some o)
      (hoid : (s.heap.get o).oid = some oid) (hcls : (s.heap.get o).cls = rootCls) :
      Edit types p s (s.assignRoot o)
  | pinRoot (o : Nat) : Edit types p s (s.pinRoot o)
  | dropRoot (oid : Nat) (hroot : s.rootOid = some oid) (hholder : s.rootHolder = none) :
      Edit types p s (s.dropRootRecord oid)
  | upserts (d : Dict (String × String × Key) Nat) : Edit types p s { s with pendingUpserts := d }
  | forget (oid : Nat) : Edit types p s { s with registry := s.registry.erase oid }

/-- A relation with room for the calm steps, and for walks and loads as a whole.
    Whoever proves these three of it has it for every operation that buffers nothing
    that was in sync: no write, no deletion and no root. -/
structure HostsCalm (types : Types) (p : Principal) (M : Store → Store → Prop) : Prop where
  calm : ∀ s t, Calm types s t → M s t
  graph : ∀ o, Moves M (registerGraph types p o [])
  load : ∀ oid, Moves M (loadOid types oid)

/-- A relation with room for the quiet steps, too, which are the calm ones and the
    deletions that need no instance at hand. -/
structure Hosts (types : Types) (p : Principal) (M : Store → Store → Prop) : Prop
    extends HostsCalm types p M where
  quiet : ∀ s t, Quiet types s t → M s t
  calm _ _ h := quiet _ _ (.calm h)

/-- A relation with room for every write that deletes nothing: the first write to a
    clean entity, and what an assignment of the root does to its holder. -/
structure HostsEdits (types : Types) (p : Principal) (M : Store → Store → Prop) : Prop
    extends HostsCalm types p M where
  firstWrite : ∀ (s : Store) (o : Nat), (s.heap.get o).state = .clean → M s (s.onFirstWrite o)
  assignRoot : ∀ (s : Store) (o oid : Nat), s.new.get? oid = some o →
    (s.heap.get o).oid = some oid → (s.heap.get o).cls = rootCls → M s (s.assignRoot o)
  pinRoot : ∀ (s : Store) (o : Nat), M s (s.pinRoot o)
  dropRoot : ∀ (s : Store) (oid : Nat), s.rootOid = some oid → s.rootHolder = none →
    M s (s.dropRootRecord oid)

/-- A relation with room for every write. The run lemma is then that of the
    operations, and what remains to be shown is one goal for each kind of step. -/
structure HostsWrites (types : Types) (p : Principal) (M : Store → Store → Prop) : Prop
    extends Hosts types p M, HostsEdits types p M where
  deleteObject : ∀ (s : Store) (o oid : Nat),
    (s.heap.get o).state = .clean ∨ (s.heap.get o).state = .dirty →
    (s.heap.get o).oid = some oid → s.rootOid ≠ some oid →
    M s (s.bufferDelete (some o) oid (s.heap.get o).cls)

variable {types : Types} {p : Principal} {M : Store → Store → Prop}

section Discovery

theorem oidOrAdopt_of_some {s : Store} {o oid : Nat} (h : (s.heap.get o).oid = some oid) :
    oidOrAdopt types p o s = .ok oid s := by
  simp only [oidOrAdopt, bind_run_ok (get_run s), h]
  rfl

theorem oidOrAdopt_of_none {s : Store} {o : Nat} (h : (s.heap.get o).oid = none) :
    oidOrAdopt types p o s =
      if (s.isProtected types o && p.uid = 0) = true then .error (.writeDenied .anonymousCreate) s
      else .ok s.alloc.nextOid (s.adopt o) := by
  simp only [oidOrAdopt, bind_run_ok (get_run s), h, adoptUnregistered]
  split <;> rfl

theorem get?_new_adopt (s : Store) (o : Nat) : (s.adopt o).new.get? s.alloc.nextOid = some o :=
  Dict.get?_set_self _ _ _

theorem isProtected_adopt (s : Store) (o n : Nat) :
    (s.adopt o).isProtected types n = s.isProtected types n := by
  simp only [isProtected, info, adopt, modifyEntity, Heap.get_set]
  split
  · rename_i h
    rw [h]
  · rfl

theorem requireStorable_ok_iff (s : Store) (o : Nat) :
    s.requireStorable o = .ok () ↔
      o < s.heap.size ∧ (s.heap.get o).state ≠ .deleted ∧ (s.heap.get o).redacted = false := by
  rw [requireStorable]
  by_cases hsize : s.heap.size ≤ o
  · simp [hsize]
  · cases hred : (s.heap.get o).redacted
    · simp [hsize, Nat.lt_of_not_le hsize]
    · simp [hsize]

/-- Stamping looks at the entity that was just adopted. -/
theorem movesAt_stampIfFresh {s : Store} (e : Queued) (oid : Nat) (fresh : Bool)
    (h : fresh = true → s.new.get? oid = some e.1) :
    MovesAt (Grow types p) (stampIfFresh types p e oid fresh) s := by
  refine movesAt_get_bind ?_
  by_cases hc : (fresh && s.isProtected types e.1) = true
  · rw [if_pos hc]
    rw [Bool.and_eq_true] at hc
    exact movesAt_modify (.stamp e.1 oid e.2 (h hc.1) hc.2)
  · rw [if_neg hc]
    exact movesAt_pure _ _

theorem movesAt_expand {s : Store} (e : Queued) (walked : List Nat) (oid : Nat) (fresh : Bool)
    (h : fresh = true → s.new.get? oid = some e.1) :
    MovesAt (Grow types p) (expand types p e walked oid fresh) s := by
  refine movesAt_get_bind ?_
  split
  · exact movesAt_pure _ _
  · split
    · refine movesAt_bind (movesAt_stampIfFresh e oid fresh h) fun _ t _ => ?_
      exact movesAt_get_bind (moves_bind (moves_ofExcept _) (fun _ => moves_pure _) t)
    · exact movesAt_pure _ _

/-- One entry of the walk adopts at most one entity, and stamps no other. -/
theorem moves_registerOne (e : Queued) (walked : List Nat) :
    Moves (Grow types p) (registerOne types p e walked) := by
  refine moves_get_bind fun s => movesAt_bind (moves_ofExcept _ s) fun u t hreq => ?_
  rcases ofExcept_ok_iff.mp hreq with ⟨hreq, ht⟩
  rw [ht]
  have hsize := ((requireStorable_ok_iff s e.1).mp hreq).1
  -- An object with an OID is walked on from, and not adopted again.
  cases hoid : (s.heap.get e.1).oid with
  | some oid =>
      refine movesAt_bind ?_ fun a t hrun => ?_
      · rw [MovesAt, oidOrAdopt_of_some hoid]
        exact .refl
      · rw [oidOrAdopt_of_some hoid] at hrun
        cases hrun
        exact movesAt_expand e walked _ _ fun hc => by simp at hc
  | none =>
      refine movesAt_bind ?_ fun a t hrun => ?_
      · rw [MovesAt, oidOrAdopt_of_none hoid]
        split
        -- A principal that may not have a protected instance born as its own is refused.
        · exact .refl
        · rename_i hprot
          refine .single (.adopt e.1 hsize hoid fun hp hc => hprot ?_)
          simp [hp, hc]
      · rw [oidOrAdopt_of_none hoid] at hrun
        split at hrun
        · cases hrun
        · cases hrun
          exact movesAt_expand e walked _ _ fun _ => get?_new_adopt _ _

theorem moves_registerLoop (fuel : Nat) : ∀ (queue : List Queued) (walked : List Nat),
    Moves (Grow types p) (registerLoop types p fuel queue walked) := by
  induction fuel with
  | zero => exact fun queue walked => moves_pure _
  | succ fuel ih =>
      intro queue walked
      cases queue with
      | nil => exact moves_pure _
      | cons e queue => exact moves_bind (moves_registerOne e walked) fun r => ih _ _

theorem moves_registerGraph (o : Nat) (walked : List Nat) :
    Moves (Grow types p) (registerGraph types p o walked) :=
  moves_get_bind fun s => moves_registerLoop _ _ _ s

theorem moves_discoverNewGraphs : Moves (Grow types p) (discoverNewGraphs types p) :=
  moves_get_bind fun s =>
    moves_bind (moves_foldlM (fun walked o => moves_registerGraph o walked) _ _)
      (fun _ => moves_pure _) s

/-- An object stays registered under an OID. -/
def Adopted (k o : Nat) (c : String) (s : Store) : Prop :=
  s.new.get? k = some o ∧ (s.heap.get o).oid = some k ∧ k < s.alloc.nextOid ∧
    (s.heap.get o).cls = c

theorem grow_adopted {k o : Nat} {c : String} (s t : Store) (h : Grow types p s t)
    (ha : Adopted k o c s) : Adopted k o c t := by
  rcases ha with ⟨hnew, hoid, hlt, hcls⟩
  cases h with
  | adopt n hsize hn huid =>
      have hne : o ≠ n := by
        rintro rfl
        rw [hoid] at hn
        simp at hn
      refine ⟨?_, ?_, ?_, ?_⟩
      · exact (Dict.get?_set_ne _ _ (Nat.ne_of_lt hlt)).trans hnew
      · exact (congrArg Entity.oid (Heap.get_set_ne _ _ hne)).trans hoid
      · exact Nat.lt_succ_of_lt hlt
      · exact (congrArg Entity.cls (Heap.get_set_ne _ _ hne)).trans hcls
  | stamp n oid container hn hprot =>
      refine ⟨hnew, ?_, hlt, ?_⟩
      · by_cases hne : o = n
        · subst hne
          simpa [stampPermLabels, modifyEntity] using hoid
        · exact (congrArg Entity.oid (Heap.get_set_ne _ _ hne)).trans hoid
      · by_cases hne : o = n
        · subst hne
          simpa [stampPermLabels, modifyEntity] using hcls
        · exact (congrArg Entity.cls (Heap.get_set_ne _ _ hne)).trans hcls

theorem adopted_adopt (s : Store) (o : Nat) :
    Adopted s.alloc.nextOid o (s.heap.get o).cls (s.adopt o) := by
  refine ⟨get?_new_adopt s o, ?_, Nat.lt_succ_self _, ?_⟩
  · simp [adopt, modifyEntity]
  · simp [adopt, modifyEntity]

/-- Storing a fresh object registers it. -/
theorem storeGraph_adopts {s t : Store} {o : Nat} {u : Unit} (hoid : (s.heap.get o).oid = none)
    (h : storeGraph types p o s = .ok u t) : ∃ k, Adopted k o (s.heap.get o).cls t := by
  rcases bind_ok_iff.mp h with ⟨walked, t', hgraph, hpure⟩
  cases hpure
  rw [registerGraph, bind_run_ok (get_run s), registerFuel, registerLoop] at hgraph
  rcases bind_ok_iff.mp hgraph with ⟨r, t₂, hone, hloop⟩
  rw [registerOne, bind_run_ok (get_run s)] at hone
  rcases bind_ok_iff.mp hone with ⟨_, t₀, hreq, hone⟩
  rw [(ofExcept_ok_iff.mp hreq).2] at hone
  rcases bind_ok_iff.mp hone with ⟨oid, t₁, hadopt, hexpand⟩
  rw [oidOrAdopt_of_none hoid] at hadopt
  split at hadopt
  · cases hadopt
  · cases hadopt
    refine ⟨s.alloc.nextOid, ?_⟩
    have hone : Relation.ReflTransGen (Grow types p) (s.adopt o) t₂ :=
      (movesAt_expand (o, none) [] _ _ fun _ => get?_new_adopt s o).of_ok hexpand
    have hrest : Relation.ReflTransGen (Grow types p) t₂ t :=
      (moves_registerLoop _ _ _ t₂).of_ok hloop
    exact reflTransGen_invariant grow_adopted (hone.trans hrest) (adopted_adopt s o)

/-- What is stored is an object of the session. -/
theorem storeGraph_size {s t : Store} {o : Nat} {u : Unit}
    (h : storeGraph types p o s = .ok u t) : o < t.heap.size := by
  rcases bind_ok_iff.mp h with ⟨walked, t', hgraph, hpure⟩
  cases hpure
  have hgrown : Relation.ReflTransGen (Grow types p) s t := (moves_registerGraph o [] s).of_ok hgraph
  have hsize : t.heap.size = s.heap.size :=
    reflTransGen_invariant (I := fun u => u.heap.size = s.heap.size)
      (fun u v hstep hu => by cases hstep <;> exact hu) hgrown rfl
  rw [registerGraph, bind_run_ok (get_run s), registerFuel, registerLoop] at hgraph
  rcases bind_ok_iff.mp hgraph with ⟨r, t₂, hone, -⟩
  rw [registerOne, bind_run_ok (get_run s)] at hone
  rcases bind_ok_iff.mp hone with ⟨_, t₀, hreq, -⟩
  rw [hsize]
  exact ((requireStorable_ok_iff s o).mp (ofExcept_ok_iff.mp hreq).1).1

end Discovery

section Loading

/-- A load goes through a value reference by reference. -/
theorem moves_mapLeaves {ρ τ : Type} {f : ρ → Store.M τ}
    (hf : ∀ r, Moves M (f r)) : ∀ v : Val ρ, Moves M (v.mapLeaves f)
  | .none => moves_pure _
  | .scalar _ => moves_pure _
  | .leaf r => moves_bind (hf r) fun _ => moves_pure _
  | .seq _ xs => moves_bind (items xs) fun _ => moves_pure _
  | .dict xs => moves_bind (entries xs) fun _ => moves_pure _
where
  items : ∀ xs : List (Val ρ), Moves M (Val.mapLeaves.mapItems f xs)
    | [] => moves_pure _
    | x :: xs => moves_bind (moves_mapLeaves hf x) fun _ => moves_bind (items xs) fun _ =>
        moves_pure _
  entries : ∀ xs : List (Scalar × Val ρ), Moves M (Val.mapLeaves.mapEntries f xs)
    | [] => moves_pure _
    | (_, x) :: xs => moves_bind (moves_mapLeaves hf x) fun _ => moves_bind (entries xs) fun _ =>
        moves_pure _

theorem moves_tiForCid (cid : Nat) : Moves M (tiForCid types cid) := by
  refine moves_get_bind fun s => ?_
  cases s.typenameByCid cid with
  | none => exact movesAt_throw _ _
  | some c => exact moves_ite (moves_pure _) (moves_throw _) s

theorem tiForCid_ok {s t : Store} {cid : Nat} {c : String} (h : tiForCid types cid s = .ok c t) :
    s = t ∧ s.typenameByCid cid = some c := by
  rw [tiForCid, bind_run_ok (get_run s)] at h
  cases hc : s.typenameByCid cid with
  | none => simp [hc, throw_run] at h
  | some d =>
      simp only [hc] at h
      split at h
      · cases h
        exact ⟨rfl, rfl⟩
      · cases h

variable {start : Nat}

theorem moves_link (root : Bool) (oid : Nat) :
    Moves (Fills types start) (link types root oid) := by
  refine moves_get_bind fun s => ?_
  cases hreg : s.registry.get? oid with
  | some o => exact movesAt_pure _ _
  | none =>
      cases hrec : s.backend.objects.get? oid with
      | none => exact movesAt_throw _ _
      | some rec =>
          refine movesAt_bind (moves_tiForCid rec.cid s) fun c t hrun => ?_
          rcases tiForCid_ok hrun with ⟨rfl, hc⟩
          split
          · exact movesAt_pure _ _
          · exact movesAt_modify_bind (.shell c oid rec hreg hrec hc) (movesAt_pure _ _)

theorem moves_resolveToken (lazyRefs : Bool) (t : Token) :
    Moves (Fills types start) (resolveToken types lazyRefs t) := by
  cases t with
  | blob oid content => exact moves_pure _
  | ref oid =>
      refine moves_ite ?_ (moves_link false oid)
      exact moves_bind moves_get fun s => moves_pure _

theorem moves_fillField {o : Nat} (ho : start ≤ o) (e : FieldSpec × Val Token) :
    Moves (Fills types start) (fillField types o e) :=
  moves_bind (moves_mapLeaves (moves_resolveToken e.1.lazyRefs) e.2) fun v =>
    moves_modify fun _ => .fill o e.1.name v ho

theorem moves_fillEntity {o : Nat} (ho : start ≤ o) :
    Moves (Fills types start) (fillEntity types o) := by
  refine moves_bind moves_get fun s => ?_
  cases (s.heap.get o).oid.bind s.backend.objects.get? with
  | none => exact moves_pure _
  | some rec =>
      exact moves_bind (moves_ofExcept _) fun plan => moves_bind (moves_raiseIf _ _) fun _ =>
        moves_forM (fun e => moves_fillField ho e) plan

theorem moves_fillShells (fuel : Nat) : ∀ {o}, start ≤ o →
    Moves (Fills types start) (fillShells types fuel o) := by
  induction fuel with
  | zero => exact fun _ => moves_pure _
  | succ fuel ih =>
      exact fun ho => moves_bind moves_get fun _ =>
        moves_ite (moves_bind (moves_fillEntity ho) fun _ => ih (Nat.le_succ_of_le ho))
          (moves_pure _)

theorem Fills.load {s t : Store} (h : Fills types start s t) : Load types s t := by
  cases h with
  | shell c oid rec hreg hrec hcls => exact .shell c oid rec hreg hrec hcls
  | fill o name v ho => exact .fill o name v

theorem unregisterFrom_steps (start : Nat) (s : Store) :
    Relation.ReflTransGen (Load types) s (s.unregisterFrom start) := by
  rw [unregisterFrom]
  generalize List.range' start (s.heap.size - start) = os
  induction os generalizing s with
  | nil => exact .refl
  | cons o os ih => exact .head (.unregister o) (ih _)

theorem moves_materializeGraph (oid : Nat) : Moves (Load types) (materializeGraph types oid) := by
  refine moves_bind moves_get fun s => moves_bind (moves_attempt ?_) fun loaded => ?_
  · exact (moves_bind (moves_link true oid) fun _ => moves_fillShells _ le_rfl).mono
      fun _ _ => Fills.load
  · cases loaded with
    | ok u => exact moves_pure _
    | error e =>
        exact moves_bind (moves_modifies fun t => unregisterFrom_steps _ t) fun _ => moves_throw _

theorem moves_loadOid (oid : Nat) : Moves (Load types) (loadOid types oid) := by
  refine moves_get_bind fun s => ?_
  cases s.registry.get? oid with
  | some o => exact movesAt_pure _ _
  | none => exact moves_materializeGraph oid s

end Loading

section Indexing

variable {b : Backend} {lineage : String → Lineage}

theorem moves_ensure (c : String) :
    Moves (Ensures types b lineage) (IndexManager.ensure types b (lineage c) c) := by
  refine moves_get_bind fun m => ?_
  cases hnone : m.byCls.get? c with
  | some ci => exact movesAt_pure _ _
  | none =>
      refine movesAt_bind (moves_ofExcept _ m) fun loaded m' hrun => ?_
      rcases ofExcept_ok_iff.mp hrun with ⟨hload, rfl⟩
      cases loaded with
      | some ci => exact movesAt_modify_bind (.loaded c ci hnone hload) (movesAt_pure _ _)
      | none =>
          refine movesAt_bind (moves_ofExcept _ _) fun ci m' hrun => ?_
          rcases ofExcept_ok_iff.mp hrun with ⟨hbuild, rfl⟩
          exact movesAt_modify_bind (.built c ci hnone hload hbuild) (movesAt_pure _ _)

/-- The indexes `ensure` returns are the ones of the class from then on. -/
theorem ensure_ok {c : String} {lin : Lineage} {m m' : IndexManager} {ci : ClassIndexes}
    (h : IndexManager.ensure types b lin c m = .ok ci m') : m'.byCls.get? c = some ci := by
  rw [IndexManager.ensure, bind_run_ok (get_run m)] at h
  cases hnone : m.byCls.get? c with
  | some ci' =>
      simp only [hnone, pure_run, EStateM.Result.ok.injEq] at h
      rw [← h.2, hnone, h.1]
  | none =>
      simp only [hnone] at h
      rcases bind_ok_iff.mp h with ⟨loaded, m₁, _, h⟩
      cases loaded with
      | some ci' =>
          rcases bind_ok_iff.mp h with ⟨_, m₂, hset, h⟩
          cases hset
          cases h
          exact Dict.get?_set_self _ _ _
      | none =>
          rcases bind_ok_iff.mp h with ⟨ci', m₂, _, h⟩
          rcases bind_ok_iff.mp h with ⟨_, m₃, hset, h⟩
          cases hset
          cases h
          exact Dict.get?_set_self _ _ _

theorem moves_checkUnique (entries : List IndexEntry) (deleted : List Nat) :
    Moves (Ensures types b lineage) (IndexManager.checkUnique types b lineage entries deleted) := by
  refine moves_bind (moves_foldlM (fun seen e => ?_) _ _) fun _ => moves_pure _
  exact moves_ite (moves_pure _) (moves_bind (moves_ensure e.2.1) fun _ => moves_ofExcept _)

/-- A program on the index manager that builds indexes on first use. -/
theorem movesAt_onIndex {α : Type} {prog : EStateM Err IndexManager α} {s : Store}
    (h : Moves (Ensures types s.backend s.lineageFor) prog) :
    MovesAt (Calm types) (onIndex prog) s :=
  movesAt_zoom (h s.index) rfl fun m _ hstep => .ensures (s := { s with index := m }) hstep

theorem moves_ensureIndex (c : String) : Moves (Calm types) (ensureIndex types c) :=
  moves_get_bind fun _ => movesAt_onIndex (moves_ensure c)

theorem ensureIndex_ok {c : String} {s t : Store} {ci : ClassIndexes}
    (h : ensureIndex types c s = .ok ci t) : t.index.byCls.get? c = some ci := by
  rw [ensureIndex, bind_run_ok (get_run s)] at h
  rcases zoom_ok_iff.mp h with ⟨m, hrun, rfl⟩
  exact ensure_ok hrun

theorem moves_holderOf (c f : String) (v : Val LiveRef) :
    Moves (Calm types) (holderOf types c f v) :=
  moves_bind moves_get fun _ => moves_ite (moves_pure _)
    (moves_bind (moves_ensureIndex c) fun _ => moves_bind (moves_ofExcept _) fun _ =>
      moves_pure _)

/-- The holder of a key is one the class's unique map names. -/
theorem holderOf_some {c f : String} {v : Val LiveRef} {s t : Store} {oid : Nat}
    (h : holderOf types c f v s = .ok (some oid) t) :
    ∃ ci key, t.index.byCls.get? c = some ci ∧ ci.holder f key = some oid := by
  rw [holderOf, bind_run_ok (get_run s)] at h
  split at h
  · cases h
  · rcases bind_ok_iff.mp h with ⟨ci, t₁, hci, h⟩
    rcases bind_ok_iff.mp h with ⟨key, t₂, hkey, h⟩
    rw [(ofExcept_ok_iff.mp hkey).2] at h
    simp only [pure_run, EStateM.Result.ok.injEq] at h
    rcases Option.bind_eq_some_iff.mp h.1 with ⟨k, _, hheld⟩
    rw [← h.2]
    exact ⟨ci, k, ensureIndex_ok hci, hheld⟩

end Indexing

section Writes

theorem HostsCalm.moves {α : Type} {m : Store.M α} (h : HostsCalm types p M)
    (hm : Moves (Calm types) m) : Moves M m := hm.mono h.calm

theorem HostsCalm.storeGraph (h : HostsCalm types p M) (o : Nat) : Moves M (storeGraph types p o) :=
  moves_bind (h.graph o) fun _ => moves_pure _

theorem hosts_touch (h : HostsEdits types p M) (o : Nat) : Moves M (touch o) := by
  refine moves_get_bind fun s => ?_
  cases hstate : (s.heap.get o).state with
  | deleted => exact movesAt_throw _ _
  | clean => exact movesAt_modify (h.firstWrite s o hstate)
  | new => exact movesAt_pure _ _
  | dirty => exact movesAt_pure _ _

theorem state_onFirstWrite (s : Store) (o : Nat) :
    ((s.onFirstWrite o).heap.get o).state = .dirty := by
  rw [onFirstWrite]
  cases (s.heap.get o).oid <;> simp [setState, modifyEntity]

/-- An object that was touched is buffered or new. -/
theorem touch_ok {s t : Store} {o : Nat} {u : Unit} (h : touch o s = .ok u t) :
    (t.heap.get o).state ≠ .clean := by
  rw [touch, bind_run_ok (get_run s)] at h
  cases hstate : (s.heap.get o).state with
  | deleted => simp [hstate, throw_run] at h
  | clean =>
      simp only [hstate, modify_run, EStateM.Result.ok.injEq] at h
      rw [← h.2, state_onFirstWrite]
      decide
  | new =>
      simp only [hstate, pure_run, EStateM.Result.ok.injEq] at h
      rw [← h.2, hstate]
      decide
  | dirty =>
      simp only [hstate, pure_run, EStateM.Result.ok.injEq] at h
      rw [← h.2, hstate]
      decide

theorem hosts_touch_edit (h : HostsEdits types p M) (o : Nat) (f : Entity → Entity)
    (hf : SameIdentity f) : Moves M (touch o >>= fun _ => modify (modifyEntity o f)) :=
  fun s => movesAt_bind (hosts_touch h o s) fun _ t hrun =>
    movesAt_modify (h.calm t _ (.edit o f hf (Or.inl (touch_ok hrun))))

theorem hosts_setField (h : HostsEdits types p M) (o : Nat) (f : String) (v : Val LiveRef) :
    Moves M (setField types o f v) :=
  moves_bind moves_get fun _ => moves_ite (moves_throw _)
    (hosts_touch_edit h o _ ⟨fun _ => rfl, fun _ => rfl, fun _ => rfl, fun _ => rfl, fun _ => rfl⟩)

theorem moves_editUnbound (o : Nat) (f : String) (v : Val LiveRef) :
    Moves (Calm types) (editUnbound types o f v) := by
  refine moves_get_bind fun s => ?_
  by_cases hc : ((s.info types o).frozen && !(s.heap.get o).bound) = true
  · rw [if_pos hc]
    rw [Bool.and_eq_true, Bool.not_eq_true'] at hc
    exact movesAt_modify
      (.edit o _ ⟨fun _ => rfl, fun _ => rfl, fun _ => rfl, fun _ => rfl, fun _ => rfl⟩ (Or.inr hc.2))
  · rw [if_neg hc]
    exact movesAt_throw _ _

theorem hosts_setLabel (h : HostsEdits types p M) (o : Nat) (w : LabelWrite) :
    Moves M (setLabel types o w) :=
  moves_bind moves_get fun _ => moves_ite (moves_throw _) (moves_ite (moves_throw _)
    (hosts_touch_edit h o _ ⟨fun _ => rfl, fun _ => rfl, fun _ => rfl, fun _ => rfl, fun _ => rfl⟩))

theorem hosts_setPermissions (h : HostsEdits types p M) (o : Nat) (l : Labels) :
    Moves M (setPermissions types o l) :=
  moves_bind (hosts_setLabel h o _) fun _ => moves_bind (hosts_setLabel h o _) fun _ =>
    moves_bind (hosts_setLabel h o _) fun _ => hosts_setLabel h o _

theorem hosts_markDirty (h : HostsEdits types p M) (o : Nat) : Moves M (markDirty types p o) := by
  refine moves_get_bind fun s => movesAt_raiseIf_bind fun _ => ?_
  have hstore : Moves M (Store.storeGraph types p o) := h.storeGraph o
  cases hstate : (s.heap.get o).state with
  | deleted => exact movesAt_throw _ _
  | clean =>
      cases (s.heap.get o).oid with
      | none => exact hstore s
      | some oid => exact movesAt_modify (h.firstWrite s o hstate)
  | new =>
      cases (s.heap.get o).oid with
      | none => exact hstore s
      | some oid => exact movesAt_pure _ _
  | dirty =>
      cases (s.heap.get o).oid with
      | none => exact hstore s
      | some oid => exact movesAt_pure _ _

theorem hosts_deleteInstance (h : HostsWrites types p M) (o : Nat) :
    Moves M (deleteInstance o) := by
  refine moves_get_bind fun s => movesAt_raiseIf_bind fun _ => ?_
  cases hoid : (s.heap.get o).oid with
  | none => exact movesAt_pure _ _
  | some oid =>
      simp only []
      split
      · exact movesAt_pure _ _
      · rename_i hdeleted
        refine movesAt_get_bind ?_
        split
        · exact movesAt_throw _ _
        · rename_i hroot
          by_cases hnew : (s.heap.get o).state = .new
          · simp only [Option.filter_some, hnew, decide_true, if_true]
            exact movesAt_modify_bind (h.quiet s _ (.cancel o oid hnew (Or.inl hoid) hroot))
              (movesAt_pure _ _)
          · simp only [Option.filter_some, hnew, decide_false, Bool.false_eq_true, if_false]
            refine movesAt_modify_bind (h.deleteObject s o oid ?_ hoid hroot) (movesAt_pure _ _)
            cases hstate : (s.heap.get o).state <;> simp [hstate] at hnew hdeleted ⊢

theorem moves_deleteByKey (c f : String) (v : Val LiveRef) :
    Moves (Quiet types) (deleteByKey types c f v) := by
  intro s
  refine movesAt_bind (moves_raiseIf _ _ s) fun _ s₁ _ => ?_
  refine movesAt_bind ((moves_holderOf c f v).mono (fun _ _ => .calm) s₁)
    fun holder s₂ hholder => movesAt_get_bind ?_
  cases holder with
  | none => exact movesAt_pure _ _
  | some oid =>
      rcases holderOf_some hholder with ⟨ci, key, hci, hheld⟩
      simp only []
      -- A deletion that is buffered is not buffered again.
      split
      · exact movesAt_pure _ _
      · refine movesAt_get_bind ?_
        split
        · exact movesAt_throw _ _
        · rename_i hroot
          -- A NEW holder is cancelled, any other one is buffered as deleted.
          cases hlive : (s₂.registry.get? oid).filter fun o => (s₂.heap.get o).state = .new with
          | some o =>
              rw [Option.filter_eq_some_iff, decide_eq_true_eq] at hlive
              exact movesAt_modify_bind (.cancel o oid hlive.2 (Or.inr hlive.1) hroot)
                (movesAt_pure _ _)
          | none =>
              refine movesAt_modify_bind (.deleteHolder oid c f key ci hci hheld ?_ hroot)
                (movesAt_pure _ _)
              intro o ho hnew
              simp [ho, hnew] at hlive

theorem hosts_getByKeyUnchecked (h : HostsCalm types p M) (c f : String) (v : Val LiveRef) :
    Moves M (getByKeyUnchecked types c f v) := by
  refine moves_bind (h.moves (moves_holderOf c f v)) fun holder => ?_
  cases holder with
  | none => exact moves_pure _
  | some oid => exact moves_bind (h.load oid) fun _ => moves_pure _

theorem hosts_resolveRegistryActor (h : HostsCalm types p M) (uid : ℤ) :
    Moves M (resolveRegistryActor types uid) := by
  refine moves_bind (hosts_getByKeyUnchecked h _ _ _) fun found => ?_
  cases found with
  | none => exact moves_throw _
  | some o =>
      refine moves_bind moves_get fun s => moves_bind (moves_raiseIf _ _) fun _ =>
        moves_ite (moves_pure _) (moves_bind ?_ fun _ => moves_pure _)
      refine moves_bind (moves_raiseIf _ _) fun _ =>
        moves_bind (hosts_getByKeyUnchecked h _ _ _) fun found => moves_bind moves_get fun _ => ?_
      cases found with
      | none => exact moves_throw _
      | some o => exact moves_raiseIf _ _

theorem hosts_actingAs (h : HostsCalm types p M) (uid : ℤ) : Moves M (actingAs types uid) :=
  moves_bind (hosts_resolveRegistryActor h uid) fun _ => moves_bind moves_get fun _ => moves_pure _

theorem hosts_derefHandle (h : HostsCalm types p M) (o : Nat) (f : String) (oid : Nat) :
    Moves M (derefHandle types o f oid) :=
  moves_bind (h.load oid) fun t => moves_bind moves_get fun _ =>
    moves_ite (moves_pure _) (moves_modify fun s => h.calm s _ (.handle o f oid (some t)))

/-- A load changes neither the root nor its holder. -/
theorem load_root (s t : Store) (h : Load types s t) :
    t.rootOid = s.rootOid ∧ t.rootHolder = s.rootHolder := by
  cases h with
  | shell c oid rec hreg hrec hcls => exact ⟨rfl, rfl⟩
  | fill o name v => exact ⟨rfl, rfl⟩
  | unregister o =>
      rw [unregister]
      cases (s.heap.get o).oid <;> exact ⟨rfl, rfl⟩

theorem moves_rootHolderOf (oid : Nat) : Moves (Load types) (rootHolderOf types oid) := by
  refine moves_bind moves_get fun s => ?_
  cases s.rootHolder with
  | some o => exact moves_pure _
  | none => exact moves_loadOid oid

/-- The holder of the root that cannot be loaded is not pinned. -/
theorem rootHolderOf_error {s t : Store} {oid : Nat} {e : Err}
    (h : rootHolderOf types oid s = .error e t) :
    t.rootOid = s.rootOid ∧ t.rootHolder = none := by
  have hsteps : Relation.ReflTransGen (Load types) s t := (moves_rootHolderOf oid s).of_error h
  have hroot := reflTransGen_invariant (M := Load types)
    (I := fun u => u.rootOid = s.rootOid ∧ u.rootHolder = s.rootHolder)
    (fun u u' hstep hu =>
      ⟨(load_root u u' hstep).1.trans hu.1, (load_root u u' hstep).2.trans hu.2⟩)
    hsteps ⟨rfl, rfl⟩
  refine ⟨hroot.1, hroot.2.trans ?_⟩
  rw [rootHolderOf, bind_run_ok (get_run s)] at h
  cases hholder : s.rootHolder with
  | none => rfl
  | some o => simp [hholder, pure_run] at h

theorem hosts_rootHolderOf (h : HostsCalm types p M) (oid : Nat) :
    Moves M (rootHolderOf types oid) := by
  refine moves_bind moves_get fun s => ?_
  cases s.rootHolder with
  | some o => exact moves_pure _
  | none => exact h.load oid

theorem hosts_newRootHolder (h : HostsEdits types p M) (v : Val LiveRef) :
    Moves M (newRootHolder types p v) := by
  refine moves_get_bind fun s =>
    movesAt_modify_bind (h.calm s _ (.construct rootCls [("value", v)])) ?_
  refine movesAt_bind (h.storeGraph _ _) fun _ t hrun => ?_
  have hfresh : ((s.construct types rootCls [("value", v)]).heap.get s.heap.size).oid = none := by
    simp [construct, Heap.get_push]
  rcases storeGraph_adopts hfresh hrun with ⟨k, hnew, hoid, _, hcls⟩
  refine movesAt_modify (h.assignRoot t _ k hnew hoid (hcls.trans ?_))
  simp [construct, Heap.get_push]

theorem hosts_loadRoot (h : HostsEdits types p M) : Moves M (loadRoot types) := by
  refine moves_bind moves_get fun s => ?_
  cases s.rootOid with
  | none => exact moves_pure _
  | some oid =>
      exact moves_bind (hosts_rootHolderOf h.toHostsCalm oid) fun o =>
        moves_modify fun t => h.pinRoot t o

theorem hosts_setRoot (h : HostsEdits types p M) (v : Val LiveRef) :
    Moves M (setRoot types p v) := by
  refine moves_get_bind fun s => ?_
  cases hroot : s.rootOid with
  | none => exact hosts_newRootHolder h v s
  | some oid =>
      refine movesAt_bind (moves_attempt (hosts_rootHolderOf h.toHostsCalm oid) s) fun r t hrun => ?_
      cases r with
      | ok o =>
          exact moves_bind (hosts_setField h o _ v) (fun _ =>
            moves_bind (h.storeGraph o) fun _ => moves_modify fun t => h.pinRoot t o) t
      | error e =>
          have hframe := rootHolderOf_error (attempt_error hrun)
          cases e with
          | danglingRef k =>
              exact movesAt_modify_bind (h.dropRoot t oid (hframe.1.trans hroot) hframe.2)
                (hosts_newRootHolder h v _)
          | _ => exact movesAt_throw _ _

theorem hosts_findByKey (h : HostsCalm types p M) (c f : String) (v : Val LiveRef) :
    Moves M (findByKey types p c f v) := by
  refine moves_bind ?_ fun committed => ?_
  · refine moves_bind (h.moves (moves_holderOf c f v)) fun holder => moves_bind moves_get fun s => ?_
    cases holder.filter fun oid => !s.deleted.contains oid with
    | none => exact moves_pure _
    | some oid =>
        exact moves_bind (h.moves (moves_ensureIndex c)) fun ci =>
          moves_bind (moves_raiseIf _ _) fun _ => moves_bind (h.load oid) fun _ => moves_pure _
  · cases committed with
    | some o => exact moves_pure _
    | none =>
        refine moves_bind (moves_ofExcept _) fun key => moves_bind moves_get fun s => ?_
        cases key.bind fun k => (s.pendingUpserts.get? (c, f, k)).map fun o => (k, o) with
        | none => exact moves_pure _
        | some e =>
            refine moves_ite (moves_pure _)
              (moves_bind (moves_modify fun t => h.calm t _ (.upserts _ fun k o hk => ?_))
                fun _ => moves_pure _)
            rw [Dict.get?_erase] at hk
            by_cases hkey : k = (c, f, e.1)
            · rw [if_pos hkey] at hk
              cases hk
            · rw [if_neg hkey] at hk
              exact Or.inl hk

theorem hosts_upsert (h : HostsEdits types p M) (o : Nat) (f : String) :
    Moves M (upsert types p o f) := by
  refine moves_bind moves_get fun s => moves_bind (moves_raiseIf _ _) fun _ =>
    moves_bind (moves_raiseIf _ _) fun _ => moves_bind (moves_raiseIf _ _) fun _ =>
    moves_bind (hosts_findByKey h.toHostsCalm _ _ _) fun existing => ?_
  cases existing with
  | none =>
      refine fun s => movesAt_bind (h.storeGraph o s) fun _ t hrun => movesAt_modifies ?_
      have hsize := storeGraph_size hrun
      unfold rememberUpsert
      split
      · refine .single (h.calm t _ (.upserts _ fun k n hk => ?_))
        rw [Dict.get?_set] at hk
        split at hk
        · cases hk
          exact Or.inr hsize
        · exact Or.inl hk
      · exact .refl
  | some e =>
      refine moves_bind moves_get fun t => moves_ite (moves_pure _) (moves_ite (moves_throw _) ?_)
      refine moves_bind moves_get fun u => moves_forM (fun name => ?_) _
      exact moves_bind moves_get fun w => moves_ite (moves_pure _) (hosts_setField h e name _)

theorem moves_forget (oid : Nat) : Moves (Calm types) (modify (forget oid) : Store.M PUnit) := by
  refine moves_modifies fun s => ?_
  rw [forget]
  split
  · exact .refl
  · rename_i hfree
    exact .single (.forget oid (by simpa using hfree))

theorem moves_effect {α : Type} {m : Store.M α} (h : Moves M m) :
    Moves M (effect m) := moves_bind h fun _ => moves_pure _

theorem edit_of_calm {s t : Store} (h : Calm types s t) : Edit types p s t := by
  cases h with
  | ensures h => exact .ensures h
  | reverse => exact .reverse
  | construct c fields => exact .construct c fields
  | edit o f hf h => exact .edit o f hf h
  | handle o f oid target => exact .handle o f oid target
  | upserts d hd => exact .upserts d
  | forget oid hfree => exact .forget oid

theorem edit_of_quiet {s t : Store} (h : Quiet types s t) : Edit types p s t := by
  cases h with
  | calm h => exact edit_of_calm h
  | cancel o oid hstate hoid hroot => exact .cancel o oid hstate hoid hroot
  | deleteHolder oid c f key ci hci hheld hstate hroot =>
      exact .deleteHolder oid c f key ci hci hheld hstate hroot

end Writes

end Store

open Store

/-- The operations that only buffer. -/
def Op.isEdit : Op → Bool
  | .commit _ => false
  | .discard => false
  | _ => true

/-- The operations that buffer no entity that was in sync, and leave the root alone. -/
def Op.isQuiet : Op → Bool
  -- What may make a clean entity dirty.
  | .setField .. => false
  | .setLabel .. => false
  | .setPermissions .. => false
  | .markDirty _ => false
  | .delete _ => false
  | .upsert .. => false
  | .loadRoot => false
  | .setRoot _ => false
  | .commit _ => false
  | .discard => false
  | _ => true

/-- The operations that delete. -/
def Op.deletes : Op → Bool
  | .delete _ => true
  | .deleteByKey .. => true
  | _ => false

variable {types : Types} {p : Principal} {M : Store → Store → Prop}

theorem hosts_calm_op (h : HostsCalm types p M) (op : Op) (hop : op.isQuiet = true)
    (hkeeps : op.deletes = false) : Moves M (op.run types p) := by
  cases op with
  | construct c fields => exact moves_modify fun s => h.calm s _ (.construct c fields)
  | editUnbound o f v => exact h.moves (moves_editUnbound o f v)
  | store o => exact h.storeGraph o
  | load oid => exact moves_effect (h.load oid)
  | getByKey c f v => exact moves_effect (hosts_getByKeyUnchecked h c f v)
  | actingAs uid => exact moves_effect (hosts_actingAs h uid)
  | derefHandle o f oid => exact hosts_derefHandle h o f oid
  | demoteHandle o f oid => exact moves_modify fun s => h.calm s _ (.handle o f oid none)
  | query c => exact moves_effect (h.moves (moves_ensureIndex c))
  | incoming => exact moves_modify fun s => h.calm s _ .reverse
  | forget oid => exact h.moves (moves_forget oid)
  | deleteByKey c f v => simp [Op.deletes] at hkeeps
  | _ => simp [Op.isQuiet] at hop

theorem hosts_quiet_op (h : Hosts types p M) (op : Op) (hop : op.isQuiet = true) :
    Moves M (op.run types p) := by
  cases op with
  | deleteByKey c f v => exact moves_effect ((moves_deleteByKey c f v).mono h.quiet)
  | delete o => simp [Op.isQuiet] at hop
  | _ => exact hosts_calm_op h.toHostsCalm _ hop rfl

/-- An operation that deletes nothing needs no room for deletions. -/
theorem hosts_edit_op (h : HostsEdits types p M) (op : Op) (hop : op.isEdit = true)
    (hkeeps : op.deletes = false) : Moves M (op.run types p) := by
  cases op with
  | setField o f v => exact hosts_setField h o f v
  | setLabel o w => exact hosts_setLabel h o w
  | setPermissions o l => exact hosts_setPermissions h o l
  | markDirty o => exact hosts_markDirty h o
  | upsert o f => exact hosts_upsert h o f
  | loadRoot => exact hosts_loadRoot h
  | setRoot v => exact hosts_setRoot h v
  | commit fault => simp [Op.isEdit] at hop
  | discard => simp [Op.isEdit] at hop
  | delete o => simp [Op.deletes] at hkeeps
  | deleteByKey c f v => simp [Op.deletes] at hkeeps
  | _ => exact hosts_calm_op h.toHostsCalm _ rfl rfl

/-- Every operation that only buffers moves by any relation that hosts it, whether
    it returns or raises. -/
theorem hosts_op (h : HostsWrites types p M) (op : Op) (hop : op.isEdit = true) :
    Moves M (op.run types p) := by
  cases op with
  | delete o => exact moves_effect (hosts_deleteInstance h o)
  | deleteByKey c f v => exact hosts_quiet_op h.toHosts _ rfl
  | _ => exact hosts_edit_op h.toHostsEdits _ hop rfl

/-- The steps of the layers have room for every operation. -/
theorem edit_hosts (types : Types) (p : Principal) : HostsWrites types p (Edit types p) where
  quiet _ _ h := edit_of_quiet h
  graph o := (moves_registerGraph o []).mono fun _ _ => .grow
  load oid := (moves_loadOid oid).mono fun _ _ => .load
  firstWrite _ o h := .firstWrite o h
  deleteObject _ o oid hstate hoid hroot := .deleteObject o oid hstate hoid hroot
  assignRoot _ o oid hnew hoid hcls := .assignRoot o oid hnew hoid hcls
  pinRoot _ o := .pinRoot o
  dropRoot _ oid hroot hholder := .dropRoot oid hroot hholder

/-- Every operation that only buffers takes `Edit` steps, whether it returns or
    raises. -/
theorem moves_op (types : Types) (p : Principal) (op : Op) (h : op.isEdit = true) :
    Moves (Edit types p) (op.run types p) := hosts_op (edit_hosts types p) op h

end DataCrystal
