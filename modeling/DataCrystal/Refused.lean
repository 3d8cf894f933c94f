import DataCrystal.Walked

/-!
# Refused Registrations

What is left behind when `store`, `upsert` or an assignment of the root raises
because the graph holds something that cannot be stored.

The walk checks an entity when its turn comes, and by then it has registered
every entity it met before. Nothing takes that back. So the call leaves no trace
if, and only if, nothing was registered on the way to what refused it; the root
holder is the worst case, since it is buffered before the walk begins.

The setter of the root is documented to refuse a value that holds a deleted
entity. The walk does not reach one: a deleted entity has an OID, and no buffer
holds it, so it is not queued. `MeetsDeleted` says what it takes for the setter to
raise, and `setRoot_deleted_iff` that it takes just that.

## Main definitions

* `refusal`: What the walk from an object is refused for.
* `NoTrace`: A store as if a call had not been made.
* `AllOrNothing`: A call that raises leaves no trace.
* `MeetsDeleted`, `RootRefused`: When a deleted entity is noticed.

## Theorems

* `registration_allOrNothing`: Which refused calls leave no trace.
* `setRoot_deleted_iff`: Which assignments of the root notice a deleted entity.
-/

namespace DataCrystal

namespace Store

variable {types : Types} {p : Principal} {kind : Nat → String} {s t u : Store}

/-- What a walk from an object is refused for: by the first object it meets that is
    refused. -/
def refusal (types : Types) (p : Principal) (s : Store) (o : Nat) : Option Err :=
  (s.walkFrom types o []).1.findSome? (s.refused types p)

/-- Whether the walk from an object registers an entity before it is refused. -/
def leavesBehind (types : Types) (p : Principal) (s : Store) (o : Nat) : Bool :=
  s.registersFirst types p (s.walkFrom types o []).1

theorem storeGraph_refused (hc : Coherent kind s) {o : Nat} {err : Err}
    (h : s.refusal types p o = some err) : ∃ u, storeGraph types p o s = .error err u ∧
      Refuses (s.leavesBehind types p o) s u := by
  rcases (registerGraph_walks hc (walking_start hc) o).1 err h with ⟨u, hrun, hu⟩
  refine ⟨u, ?_, hu⟩
  rw [storeGraph, bind_run, hrun]

theorem storeGraph_accepted (hc : Coherent kind s) {o : Nat} (h : s.refusal types p o = none) :
    ∃ u, storeGraph types p o s = .ok () u := by
  rcases (registerGraph_walks hc (walking_start hc) o).2 h with ⟨walked, u, hrun, -⟩
  refine ⟨u, ?_⟩
  rw [storeGraph, bind_run_ok hrun]
  rfl

/-- No object has another OID or other labels than before, the buffers hold what
    they held, and the next commit does what it would have done. -/
structure NoTrace (s t : Store) : Prop where
  oids : ∀ o, (t.heap.get o).oid = (s.heap.get o).oid
  labels : ∀ o, (t.heap.get o).labels = (s.heap.get o).labels
  new : t.new = s.new
  dirty : t.dirty = s.dirty
  nextCommit : ∀ types p fault, commit types p fault t = commit types p fault s

theorem noTrace_refl (s : Store) : NoTrace s s :=
  ⟨fun _ => rfl, fun _ => rfl, rfl, rfl, fun _ _ _ => rfl⟩

/-- Where a call raises, the store is as it was in `u`, which is the store of the
    call or, for the root, that store with the holder read in. -/
def AllOrNothing (m : M Unit) (s u : Store) : Prop := ∀ err t, m s = .error err t → NoTrace u t

/-- Registering a graph is all or nothing just if nothing in it is refused, or
    nothing is registered before. -/
theorem storeGraph_allOrNothing (hc : Coherent kind s) (o : Nat) :
    AllOrNothing (storeGraph types p o) s s ↔
      s.refusal types p o = none ∨ s.leavesBehind types p o = false := by
  cases href : s.refusal types p o with
  | none =>
      rcases storeGraph_accepted hc href with ⟨u, hu⟩
      exact ⟨fun _ => Or.inl rfl, fun _ err t ht => by rw [hu] at ht; cases ht⟩
  | some err =>
      rcases storeGraph_refused hc href with ⟨u, hrun, hu⟩
      constructor
      · intro h
        refine Or.inr ?_
        by_contra hleft
        rcases hu.left (by simpa using hleft) with ⟨n, k, hbefore, hafter⟩
        have hoid := (h err u hrun).oids n
        rw [hbefore, hafter] at hoid
        cases hoid
      · rintro (hno | hleft) err' t ht
        · cases hno
        · rw [hrun] at ht
          cases ht
          rw [hu.intact hleft]
          exact noTrace_refl s

section Fields

/-- An object's fields stay as they are in a commit storage refuses. -/
theorem keeps_data_discover (o : Nat) (d : String → Val LiveRef) :
    Keeps (fun s => (s.heap.get o).data = d) (discoverNewGraphs types p) := by
  refine (@moves_discoverNewGraphs types p).mono fun s t hstep hs => ?_
  cases hstep with
  | adopt n hsize hoid huid =>
      refine Eq.trans ?_ hs
      rw [get_adopt]
      split
      · rename_i hn
        rw [hn]
      · rfl
  | stamp n oid container hnew hprot =>
      refine Eq.trans ?_ hs
      rw [get_stampPermLabels]
      split
      · rename_i hn
        rw [hn]
      · rfl

theorem keeps_data_validate (o : Nat) (d : String → Val LiveRef) :
    Keeps (fun s => (s.heap.get o).data = d) (validateBeforeTid types p) := by
  refine moves_get_bind fun s => movesAt_bind ?_ fun _ t _ =>
    moves_bind moves_get (fun t => moves_bind (moves_ofExcept _) fun _ => moves_ofExcept _) t
  unfold MovesAt onIndex
  rw [finalState_zoom]
  exact .single fun hs => hs

theorem keeps_data_encode (o : Nat) (d : String → Val LiveRef) (entries : List (Nat × Nat)) :
    Keeps (fun s => (s.heap.get o).data = d) (encodePending types entries) := by
  refine (@moves_encodePending types entries).mono fun s t hstep hs => ?_
  cases hstep with
  | blobOid => exact hs
  | shape c => exact hs

theorem data_modify {f : Entity → Entity} (hf : ∀ e, (f e).data = e.data) (s : Store) (n o : Nat) :
    ((s.modifyEntity n f).heap.get o).data = (s.heap.get o).data := by
  rw [get_modifyEntity]
  split
  · rename_i h
    rw [h, hf]
  · rfl

theorem data_settle (types : Types) (s : Store) (o : Nat) :
    ((s.settle types).heap.get o).data = (s.heap.get o).data := by
  have hfold : ∀ (es : List (Nat × Nat)) (s : Store),
      ((es.foldl (flipOne types) s).heap.get o).data = (s.heap.get o).data := by
    intro es
    induction es with
    | nil => exact fun s => rfl
    | cons e es ih =>
        intro s
        refine (ih _).trans ?_
        exact data_modify (f := fun ent =>
          { ent with state := .clean, bound := ent.bound || (types.info ent.cls).frozen })
          (fun _ => rfl) s e.2 o
  exact hfold _ s

theorem data_rollback (cap : Capture) (s : Store) (o : Nat) :
    ((p2Rollback cap s).heap.get o).data = (s.heap.get o).data := by
  have hfold : ∀ (es : List (Nat × Nat × EntityState)) (s : Store),
      ((es.foldl restoreOne s).heap.get o).data = (s.heap.get o).data := by
    intro es
    induction es with
    | nil => exact fun s => rfl
    | cons e es ih =>
        intro s
        have hstate : ∀ st, ((s.setState e.2.1 st).heap.get o).data = (s.heap.get o).data :=
          fun st => data_modify (f := fun ent => { ent with state := st }) (fun _ => rfl) s e.2.1 o
        refine (ih _).trans ?_
        unfold restoreOne
        split <;> exact hstate _
  exact hfold _ _

theorem data_commit_refused (types : Types) (p : Principal) (s : Store) (o : Nat) :
    ((finalState (commit types p true s)).heap.get o).data = (s.heap.get o).data := by
  have hfirst : Keeps (fun t => (t.heap.get o).data = (s.heap.get o).data) (p1Capture types p) := by
    refine moves_bind (keeps_data_discover o _) fun _ => moves_bind moves_get fun t =>
      moves_ite (moves_pure _) (moves_bind (keeps_data_validate o _) fun _ =>
        moves_bind (keeps_data_encode o _ _) fun out => moves_bind moves_get fun t =>
          moves_bind (moves_modify fun s hs => ?_) fun _ => moves_pure _)
    exact (data_settle types s o).trans hs
  have hall : Keeps (fun t => (t.heap.get o).data = (s.heap.get o).data) (commit types p true) := by
    refine moves_bind hfirst fun captured => ?_
    cases captured with
    | none => exact moves_pure _
    | some cap =>
        refine moves_bind (moves_modify fun s hs => ?_) fun _ => moves_throw _
        exact (data_rollback cap s o).trans hs
  exact hall.final rfl

end Fields

theorem edits_coherent (h : Relation.ReflTransGen (Edit types p) s t) (hc : Coherent kind s) :
    Coherent kind t :=
  reflTransGen_invariant (I := Coherent kind) (fun _ _ hstep hs => edit_coherent hstep hs) h hc

section Upserting

/-- What an upsert checks before it looks for the entity that holds the key. -/
def upsertChecks (types : Types) (s : Store) (o : Nat) (f : String) : Bool :=
  !(s.heap.get o).redacted && (types.info (s.heap.get o).cls).uniqueFields.contains f &&
    !((s.heap.get o).data f matches .none)

/-- The store in which an upsert comes to insert its object: it has looked for the
    entity that holds the key, and there is none. -/
def upsertStart (types : Types) (p : Principal) (s : Store) (o : Nat) (f : String) :
    Option Store :=
  if s.upsertChecks types o f then
    match findByKey types p (s.heap.get o).cls f ((s.heap.get o).data f) s with
    | .ok none u => some u
    | _ => none
  else none

theorem upsertStart_some {o : Nat} {f : String} (h : s.upsertStart types p o f = some u) :
    s.upsertChecks types o f = true ∧
      findByKey types p (s.heap.get o).cls f ((s.heap.get o).data f) s = .ok none u := by
  unfold upsertStart at h
  by_cases hchecks : s.upsertChecks types o f = true
  · rw [if_pos hchecks] at h
    refine ⟨hchecks, ?_⟩
    cases hfind : findByKey types p (s.heap.get o).cls f ((s.heap.get o).data f) s with
    | error e t => simp [hfind] at h
    | ok r t =>
        cases r with
        | some e => simp [hfind] at h
        | none =>
            simp only [hfind, Option.some.injEq] at h
            rw [h]
  · rw [if_neg hchecks] at h
    cases h

theorem upsert_from_start {o : Nat} {f : String} (h : s.upsertStart types p o f = some u) :
    upsert types p o f s = (storeGraph types p o >>= fun _ =>
      modify (rememberUpsert (s.heap.get o).cls f ((s.heap.get o).data f) o)) u := by
  rcases upsertStart_some h with ⟨hchecks, hfind⟩
  unfold upsertChecks at hchecks
  simp only [Bool.and_eq_true, Bool.not_eq_true'] at hchecks
  rcases hchecks with ⟨⟨hred, huniq⟩, hnone⟩
  unfold upsert
  rw [bind_run_ok (get_run s), bind_run_ok (a := ()) (raiseIf_ok_iff.mpr ⟨hred, rfl⟩),
    bind_run_ok (a := ()) (raiseIf_ok_iff.mpr ⟨by rw [huniq]; rfl, rfl⟩)]
  refine (bind_run_ok (a := ()) (raiseIf_ok_iff.mpr ⟨hnone, rfl⟩)).trans ?_
  rw [bind_run_ok hfind]

theorem upsertStart_coherent (hc : Coherent kind s) {o : Nat} {f : String}
    (h : s.upsertStart types p o f = some u) : Coherent kind u :=
  edits_coherent
    ((hosts_findByKey (edit_hosts types p).toHostsCalm _ _ _ s).of_ok (upsertStart_some h).2) hc

/-- So is an upsert that comes to insert its object. -/
theorem upsert_allOrNothing (hc : Coherent kind s) {o : Nat} {f : String}
    (h : s.upsertStart types p o f = some u) : AllOrNothing (upsert types p o f) s u ↔
      u.refusal types p o = none ∨ u.leavesBehind types p o = false := by
  rw [← storeGraph_allOrNothing (upsertStart_coherent hc h) o]
  unfold AllOrNothing
  rw [upsert_from_start h, bind_run]
  cases hstore : storeGraph types p o u with
  | ok _ t =>
      constructor
      · intro _ err t' ht
        cases ht
      · intro _ err t' ht
        cases ht
  | error e t => exact Iff.rfl

end Upserting

section Rooting

/-- The store with a value assigned to the holder of the root. -/
def holding (o : Nat) (v : Val LiveRef) (s : Store) : Store :=
  (if (s.heap.get o).state = .clean then s.onFirstWrite o else s).modifyEntity o fun e =>
    { e with data := Function.update e.data "value" v }

/-- Whether the holder of the root refuses a value at all. -/
def refusesWrite (types : Types) (s : Store) (o : Nat) : Bool :=
  (s.info types o).frozen || (s.heap.get o).state = .deleted

theorem setField_refused {o : Nat} {v : Val LiveRef} (h : s.refusesWrite types o = true) :
    setField types o "value" v s = .error
      (if (s.info types o).frozen then .frozenEntity else .deletedEntity) s := by
  unfold setField
  rw [bind_run_ok (get_run s)]
  cases hf : (s.info types o).frozen with
  | true => rfl
  | false =>
      have hstate : (s.heap.get o).state = .deleted := by simpa [refusesWrite, hf] using h
      have htouch : touch o s = .error .deletedEntity s := by
        unfold touch
        rw [bind_run_ok (get_run s), hstate]
        rfl
      simp only [Bool.false_eq_true, if_false]
      rw [bind_run, htouch]

theorem setField_accepted {o : Nat} {v : Val LiveRef} (h : s.refusesWrite types o = false) :
    setField types o "value" v s = .ok () (s.holding o v) := by
  unfold refusesWrite at h
  rw [Bool.or_eq_false_iff] at h
  have hdel : (s.heap.get o).state ≠ .deleted := by simpa using h.2
  unfold setField
  rw [bind_run_ok (get_run s), h.1]
  simp only [Bool.false_eq_true, if_false]
  have htouch : touch o s = .ok ()
      (if (s.heap.get o).state = .clean then s.onFirstWrite o else s) := by
    unfold touch
    rw [bind_run_ok (get_run s)]
    cases hst : (s.heap.get o).state with
    | deleted => exact absurd hst hdel
    | clean => rfl
    | dirty => rfl
    | new => rfl
  rw [bind_run_ok htouch]
  rfl

theorem holding_coherent (hc : Coherent kind s) {o : Nat} {v : Val LiveRef}
    (h : s.refusesWrite types o = false) : Coherent kind (s.holding o v) :=
  edits_coherent ((hosts_setField (edit_hosts types default).toHostsEdits o "value" v s).of_ok
    (setField_accepted h)) hc

/-- What an assignment of the root does once its holder is at hand. -/
theorem setRoot_held {v : Val LiveRef} {k o : Nat} (hroot : s.rootOid = some k)
    (hload : rootHolderOf types k s = .ok o u) : setRoot types p v s = (do
      setField types o "value" v
      storeGraph types p o
      modify (pinRoot o)) u := by
  have hattempt : attempt (rootHolderOf types k) s = .ok (.ok o) u := by
    unfold attempt
    rw [hload]
  unfold setRoot
  rw [bind_run_ok (get_run s), hroot]
  dsimp only
  rw [bind_run_ok hattempt]

theorem setRoot_lost {v : Val LiveRef} {k k' : Nat} (hroot : s.rootOid = some k)
    (hload : rootHolderOf types k s = .error (.danglingRef k') u) : setRoot types p v s =
      newRootHolder types p v (u.dropRootRecord k) := by
  have hattempt : attempt (rootHolderOf types k) s = .ok (.error (.danglingRef k')) u := by
    unfold attempt
    rw [hload]
  unfold setRoot
  rw [bind_run_ok (get_run s), hroot]
  dsimp only
  rw [bind_run_ok hattempt]
  exact bind_run_ok (modify_run _ u)

/-- Any other failure to load the holder is passed on. -/
theorem setRoot_unreadable {v : Val LiveRef} {k : Nat} {e : Err} (hroot : s.rootOid = some k)
    (hload : rootHolderOf types k s = .error e u) (he : ∀ k', e ≠ .danglingRef k') :
    setRoot types p v s = .error e u := by
  have hattempt : attempt (rootHolderOf types k) s = .ok (.error e) u := by
    unfold attempt
    rw [hload]
  unfold setRoot
  rw [bind_run_ok (get_run s), hroot]
  dsimp only
  rw [bind_run_ok hattempt]
  cases e with
  | danglingRef k' => exact absurd rfl (he k')
  | _ => rfl

theorem setRoot_none {v : Val LiveRef} (hroot : s.rootOid = none) :
    setRoot types p v s = newRootHolder types p v s := by
  unfold setRoot
  rw [bind_run_ok (get_run s), hroot]

/-- The store with a new holder of a root value, which is no more than an object. -/
def rootMade (types : Types) (v : Val LiveRef) (s : Store) : Store :=
  s.construct types rootCls [("value", v)]

theorem newRootHolder_run (v : Val LiveRef) : newRootHolder types p v s =
    (storeGraph types p s.heap.size >>= fun _ => modify (assignRoot s.heap.size))
      (s.rootMade types v) := by
  rw [newRootHolder, bind_run_ok (get_run s), bind_run_ok (modify_run _ s)]
  rfl

theorem rootMade_coherent (hc : Coherent kind s) (v : Val LiveRef) :
    Coherent kind (s.rootMade types v) :=
  @edits_coherent types default _ _ _ (.single (.construct rootCls [("value", v)])) hc

/-- A new holder is registered before anything in its value is looked at. -/
theorem newRootHolder_allOrNothing (hc : Coherent kind s) (v : Val LiveRef)
    (hu : ∀ o, (u.heap.get o).oid = (s.heap.get o).oid) :
    AllOrNothing (newRootHolder types p v) s u ↔
      (s.rootMade types v).refusal types p s.heap.size = none := by
  have hcm := @rootMade_coherent types _ _ hc v
  -- The holder is the entity that the assignment has just made.
  have hget : (s.rootMade types v).heap.get s.heap.size =
      { cls := rootCls, data := fieldIn [("value", v)], bound := true } := by
    have hself := (Heap.get_push s.heap s.heap.size
      { cls := rootCls, data := fieldIn [("value", v)],
        bound := !(types.info rootCls).frozen }).trans (if_pos rfl)
    rw [Types.info_root] at hself
    exact hself
  unfold AllOrNothing
  rw [newRootHolder_run]
  -- An accepted walk leaves nothing to undo; a refused one has registered the holder.
  cases href : (s.rootMade types v).refusal types p s.heap.size with
  | none =>
      rcases storeGraph_accepted hcm href with ⟨w, hw⟩
      rw [bind_run_ok hw]
      constructor
      · exact fun _ => rfl
      · intro _ err t ht
        cases ht
  | some err =>
      rcases storeGraph_refused hcm href with ⟨w, hrun, hw⟩
      refine ⟨fun h => ?_, fun h => by cases h⟩
      have hraise : (storeGraph types p s.heap.size >>= fun _ =>
          modify (assignRoot s.heap.size)) (s.rootMade types v) = .error err w := by
        rw [bind_run, hrun]
      -- The first thing the walk meets is the holder, which is registered.
      have hfirst : (s.rootMade types v).leavesBehind types p s.heap.size = true := by
        have hstorable : (s.rootMade types v).requireStorable s.heap.size = .ok () := by
          rw [requireStorable_ok_iff, hget]
          exact ⟨Nat.lt_succ_self _, EntityState.noConfusion, rfl⟩
        have hnot : (s.rootMade types v).isProtected types s.heap.size = false := by
          unfold isProtected info
          rw [hget, Types.info_root]
          rfl
        have hturned : (s.rootMade types v).turnedAway types p s.heap.size = none := by
          rw [turnedAway_none_iff]
          exact ⟨hstorable, fun _ hprot => by rw [hnot] at hprot; cases hprot⟩
        unfold leavesBehind walkFrom Store.registerFuel
        rw [WalkGraph.walk_fresh List.not_mem_nil, registersFirst, hturned, hget]
        rfl
      -- So some entity has an OID after the error that it had not before, and it is the holder or
      -- an older one.
      rcases hw.left hfirst with ⟨n, k, hbefore, hafter⟩
      have hoid := (h err w hraise).oids n
      rw [hafter, hu] at hoid
      by_cases hn : n = s.heap.size
      · have hlt := hc.objects.bounded n k hoid.symm
        omega
      · have hsame : (s.rootMade types v).heap.get n = s.heap.get n :=
          (Heap.get_push s.heap n _).trans (if_neg hn)
        rw [hsame, ← hoid] at hbefore
        cases hbefore

theorem get_holding (s : Store) (o : Nat) (v : Val LiveRef) (n : Nat) :
    ((s.holding o v).heap.get n).oid = (s.heap.get n).oid ∧
      ((s.holding o v).heap.get o).data "value" = v := by
  have hwrite : ((if (s.heap.get o).state = .clean then s.onFirstWrite o else s).heap.get n).oid =
      (s.heap.get n).oid := by
    split
    · have hlife : ((s.setState o .dirty).heap.get n).oid = (s.heap.get n).oid := by
        rw [setState, get_modifyEntity]
        split
        · rename_i hn
          rw [hn]
        · rfl
      unfold onFirstWrite
      cases (s.heap.get o).oid <;> exact hlife
    · rfl
  unfold holding
  refine ⟨?_, ?_⟩
  · rw [get_modifyEntity]
    split
    · rename_i hn
      rw [← hwrite, hn]
    · exact hwrite
  · rw [get_modifyEntity, if_pos rfl]
    simp

/-- An assignment to the holder of the root is all or nothing just if nothing is
    refused, or the holder was buffered before, had the value already, and nothing
    else was registered. -/
theorem heldRoot_allOrNothing (hc : Coherent kind u) {v : Val LiveRef} {o k : Nat}
    (hroot : s.rootOid = some k) (hload : rootHolderOf types k s = .ok o u) :
    AllOrNothing (setRoot types p v) s u ↔
      u.refusesWrite types o = true ∨ (u.holding o v).refusal types p o = none ∨
        ((u.heap.get o).state ≠ .clean ∧ (u.heap.get o).data "value" = v ∧
          (u.holding o v).leavesBehind types p o = false) := by
  unfold AllOrNothing
  rw [setRoot_held hroot hload]
  -- The write of the value is refused, or the walk over it is accepted, or the walk is refused
  -- behind a write.
  cases hrefuses : u.refusesWrite types o with
  | true =>
      refine ⟨fun _ => Or.inl rfl, fun _ err t ht => ?_⟩
      rw [bind_run, setField_refused hrefuses] at ht
      cases ht
      exact noTrace_refl u
  | false =>
      have hch := holding_coherent (v := v) hc hrefuses
      rw [bind_run_ok (setField_accepted hrefuses)]
      cases href : (u.holding o v).refusal types p o with
      | none =>
          rcases storeGraph_accepted hch href with ⟨w, hw⟩
          rw [bind_run_ok hw]
          constructor
          · exact fun _ => Or.inr (Or.inl rfl)
          · intro _ err t ht
            cases ht
      | some err =>
          rcases storeGraph_refused hch href with ⟨w, hrun, hw⟩
          rw [bind_run, hrun]
          constructor
          -- A refused walk without a trace has registered nothing, and the write before it changed
          -- nothing.
          · intro h
            have htrace := h err w rfl
            have hleft : (u.holding o v).leavesBehind types p o = false := by
              by_contra hleft
              rcases hw.left (by simpa using hleft) with ⟨n, k', hbefore, hafter⟩
              have hoid := htrace.oids n
              rw [hafter, ← (get_holding u o v n).1, hbefore] at hoid
              cases hoid
            rw [hw.intact hleft] at htrace
            refine Or.inr (Or.inr ⟨fun hclean => ?_, ?_, hleft⟩)
            · -- a clean holder is buffered by the assignment
              cases hoid : (u.heap.get o).oid with
              | none =>
                  rw [hc.objects.fresh o hoid] at hclean
                  cases hclean
              | some k' =>
                  have hdirty : u.dirty.get? k' = some o := by
                    rw [← htrace.dirty]
                    unfold holding
                    rw [if_pos hclean]
                    unfold onFirstWrite
                    rw [hoid]
                    exact Dict.get?_set_self _ _ _
                  rw [(hc.objects.isDirty k' o hdirty).2] at hclean
                  cases hclean
            · -- the value is still there behind a commit that storage refuses
              have hnext := data_commit_refused types p (u.holding o v) o
              rw [htrace.nextCommit types p true, data_commit_refused] at hnext
              rw [hnext, (get_holding u o v o).2]
          -- Conversely a write of the same value to a holder that is buffered is no write.
          · rintro (hno | hno | ⟨hclean, hvalue, hleft⟩) err' t ht
            · cases hno
            · cases hno
            · cases ht
              have hentity : { u.heap.get o with
                  data := Function.update (u.heap.get o).data "value" v } = u.heap.get o := by
                rw [← hvalue, Function.update_eq_self]
              have hsame : u.holding o v = u := by
                unfold holding modifyEntity Heap.set
                rw [if_neg hclean]
                dsimp only
                rw [hentity, Function.update_eq_self]
              rw [hw.intact hleft, hsame]
              exact noTrace_refl u

/-- The store in which an assignment of the root has its holder, or knows that it is
    lost. -/
def rootRead (types : Types) (s : Store) : Store :=
  match s.rootOid with
  | none => s
  | some k => finalState (rootHolderOf types k s)

/-- When an assignment of the root that raises leaves no trace. -/
def RootHarmless (types : Types) (p : Principal) (s : Store) (v : Val LiveRef) : Prop :=
  match s.rootOid with
  -- No root yet: a holder is made, and nothing of it was registered.
  | none => (s.rootMade types v).refusal types p s.heap.size = none
  | some k =>
    match rootHolderOf types k s with
    | .ok o u =>
      -- Refused at the gate, walked without a refusal, or in the same state as before.
      u.refusesWrite types o = true ∨ (u.holding o v).refusal types p o = none ∨
        ((u.heap.get o).state ≠ .clean ∧ (u.heap.get o).data "value" = v ∧
          (u.holding o v).leavesBehind types p o = false)
    -- The record of the root is gone: a new holder is made.
    | .error (.danglingRef _) u =>
      ((u.dropRootRecord k).rootMade types v).refusal types p u.heap.size = none
    -- The holder does not load, which leaves no trace.
    | .error _ _ => True

/-- Loading the holder of the root, or failing to, is a run of edits. -/
theorem rootHolderOf_coherent (hc : Coherent kind s) (k : Nat) :
    Coherent kind (finalState (rootHolderOf types k s)) :=
  @edits_coherent types default _ _ _
    (hosts_rootHolderOf (edit_hosts types default).toHostsCalm k s) hc

theorem dropRoot_coherent (hc : Coherent kind s) {k : Nat} {e : Err} (hroot : s.rootOid = some k)
    (hload : rootHolderOf types k s = .error e u) : Coherent kind (u.dropRootRecord k) := by
  have hu : Coherent kind u := by
    have hfinal := @rootHolderOf_coherent types _ _ hc k
    rw [hload] at hfinal
    exact hfinal
  rcases rootHolderOf_error hload with ⟨hrootu, hholder⟩
  exact @edits_coherent types default _ _ _
    (.single (.dropRoot k (hrootu.trans hroot) hholder)) hu

theorem setRoot_allOrNothing (hc : Coherent kind s) (v : Val LiveRef) :
    AllOrNothing (setRoot types p v) s (s.rootRead types) ↔ RootHarmless types p s v := by
  unfold rootRead RootHarmless
  cases hroot : s.rootOid with
  -- No root yet: a fresh holder is registered, or leaves no trace.
  | none =>
      have hiff := @newRootHolder_allOrNothing types p _ _ s hc v fun _ => rfl
      unfold AllOrNothing at hiff ⊢
      rw [setRoot_none hroot]
      exact hiff
  | some k =>
      dsimp only
      have hfinal := @rootHolderOf_coherent types _ _ hc k
      cases hload : rootHolderOf types k s with
      -- The holder of before is given the value.
      | ok o u =>
          rw [hload] at hfinal
          exact heldRoot_allOrNothing hfinal hroot hload
      | error e u =>
          have hdrop := dropRoot_coherent hc hroot hload
          -- The record of the holder is gone: again a fresh one.
          by_cases he : ∃ k', e = .danglingRef k'
          · rcases he with ⟨k', rfl⟩
            have hiff := @newRootHolder_allOrNothing types p _ _ u hdrop v
              fun _ => rfl
            unfold AllOrNothing at hiff ⊢
            rw [setRoot_lost hroot hload]
            exact hiff
          -- Any other error of the load is raised as it is.
          · have hraise := setRoot_unreadable (p := p) (v := v) hroot hload
              fun k' hk' => he ⟨k', hk'⟩
            have htrue : AllOrNothing (setRoot types p v) s u := by
              intro err t ht
              rw [hraise] at ht
              cases ht
              exact noTrace_refl u
            cases e with
            | danglingRef k' => exact absurd ⟨k', rfl⟩ he
            | _ => exact ⟨fun _ => trivial, fun _ => htrue⟩

/-- A walk comes to a deleted entity, and to nothing else before that it is refused
    for. -/
def MeetsDeleted (types : Types) (p : Principal) (s : Store) (o : Nat) : Prop :=
  ∃ before x on after, (s.walkFrom types o []).1 = before ++ (x, on) :: after ∧
    (∀ m ∈ before, s.refused types p m = none) ∧
    x < s.heap.size ∧ (s.heap.get x).redacted = false ∧ (s.heap.get x).state = .deleted

theorem refused_deleted_iff (m : Nat × Bool) : s.refused types p m = some .deletedEntity ↔
    m.1 < s.heap.size ∧ (s.heap.get m.1).redacted = false ∧ (s.heap.get m.1).state = .deleted := by
  unfold refused turnedAway requireStorable
  by_cases hsize : s.heap.size ≤ m.1
  · simp [hsize, Nat.not_lt.mpr hsize]
  · have hlt : m.1 < s.heap.size := by omega
    cases hred : (s.heap.get m.1).redacted with
    | true => simp [hsize]
    | false =>
        by_cases hdel : (s.heap.get m.1).state = .deleted
        · simp [hsize, hdel, hlt]
        · simp only [hsize, if_false, Bool.false_eq_true, hdel, and_false, iff_false]
          split
          · simp
          · split <;> simp

theorem meetsDeleted_iff (o : Nat) :
    MeetsDeleted types p s o ↔ s.refusal types p o = some .deletedEntity := by
  unfold MeetsDeleted refusal
  rw [List.findSome?_eq_some_iff]
  constructor
  · rintro ⟨before, x, on, after, hwalk, hbefore, hdel⟩
    exact ⟨before, (x, on), after, hwalk, (refused_deleted_iff (x, on)).mpr hdel, hbefore⟩
  · rintro ⟨before, ⟨x, on⟩, after, hwalk, hdel, hbefore⟩
    exact ⟨before, x, on, after, hwalk, hbefore, (refused_deleted_iff (x, on)).mp hdel⟩

/-- Registering a graph raises for a deleted entity just if its walk meets one. -/
theorem storeGraph_deleted_iff (hc : Coherent kind s) (o : Nat) :
    (∃ t, storeGraph types p o s = .error .deletedEntity t) ↔ MeetsDeleted types p s o := by
  rw [meetsDeleted_iff]
  cases href : s.refusal types p o with
  | none =>
      rcases storeGraph_accepted hc href with ⟨u, hu⟩
      rw [hu]
      simp
  | some err =>
      rcases storeGraph_refused hc href with ⟨u, hrun, -⟩
      rw [hrun]
      simp

theorem newRootHolder_deleted_iff (hc : Coherent kind s) (v : Val LiveRef) :
    (∃ t, newRootHolder types p v s = .error .deletedEntity t) ↔
      MeetsDeleted types p (s.rootMade types v) s.heap.size := by
  rw [← storeGraph_deleted_iff (rootMade_coherent hc v), newRootHolder_run, bind_run]
  cases storeGraph types p s.heap.size (s.rootMade types v) with
  | ok _ t => simp [modify_run]
  | error e t => exact Iff.rfl

/-- When an assignment of the root notices a deleted entity. -/
def RootMeetsDeleted (types : Types) (p : Principal) (s : Store) (v : Val LiveRef) : Prop :=
  match s.rootOid with
  | none => MeetsDeleted types p (s.rootMade types v) s.heap.size
  | some k =>
    match rootHolderOf types k s with
    | .ok o u =>
      -- The assignment raises before the walk.
      if (u.info types o).frozen then False
      else (u.heap.get o).state = .deleted ∨ MeetsDeleted types p (u.holding o v) o
    | .error (.danglingRef _) u =>
      MeetsDeleted types p ((u.dropRootRecord k).rootMade types v) u.heap.size
    -- Loading the holder raises, and a deleted holder is refused so.
    | .error e _ => e = .deletedEntity

theorem setRoot_meets (hc : Coherent kind s) (v : Val LiveRef) :
    (∃ t, setRoot types p v s = .error .deletedEntity t) ↔ RootMeetsDeleted types p s v := by
  unfold RootMeetsDeleted
  -- The root is unset, or its holder loads, or the load of it fails.
  cases hroot : s.rootOid with
  | none =>
      rw [setRoot_none hroot]
      exact newRootHolder_deleted_iff hc v
  | some k =>
      dsimp only
      have hfinal := @rootHolderOf_coherent types _ _ hc k
      cases hload : rootHolderOf types k s with
      | ok o u =>
          rw [hload] at hfinal
          have hcu : Coherent kind u := hfinal
          rw [setRoot_held hroot hload]
          dsimp only
          -- Of the two ways a write is refused only a deleted holder is meant; the walk behind it
          -- meets its own deleted entities.
          cases hrefuses : u.refusesWrite types o with
          | true =>
              rw [bind_run, setField_refused hrefuses]
              cases hf : (u.info types o).frozen with
              | true => simp
              | false =>
                  have hdel : (u.heap.get o).state = .deleted := by
                    simpa [refusesWrite, hf] using hrefuses
                  simp [hdel]
          | false =>
              have hcond : (u.info types o).frozen = false ∧ (u.heap.get o).state ≠ .deleted := by
                simpa [refusesWrite] using hrefuses
              rw [bind_run_ok (setField_accepted hrefuses), hcond.1,
                ← storeGraph_deleted_iff (holding_coherent hcu hrefuses), bind_run]
              cases storeGraph types p o (u.holding o v) with
              | ok _ t =>
                  simp [hcond.2, modify_run]
              | error e t => simp [hcond.2]
      | error e u =>
          -- A root that is lost is made anew; every other failure of the load is not about deleted
          -- entities.
          have hdrop := dropRoot_coherent hc hroot hload
          by_cases he : ∃ k', e = .danglingRef k'
          · rcases he with ⟨k', rfl⟩
            rw [setRoot_lost hroot hload]
            exact newRootHolder_deleted_iff hdrop v
          · rw [setRoot_unreadable hroot hload fun k' hk' => he ⟨k', hk'⟩]
            cases e with
            | danglingRef k' => exact absurd ⟨k', rfl⟩ he
            | _ => simp

end Rooting

end Store

open Store

/-- Which calls that register a graph leave no trace where they raise. A `store` and
    an `upsert` that comes to insert do just if they register nothing before they
    are refused. -/
theorem registration_allOrNothing {kind : Nat → String} {s : Store} (hc : Coherent kind s)
    (types : Types) (p : Principal) :
    (∀ o, AllOrNothing (storeGraph types p o) s s ↔
      s.refusal types p o = none ∨ s.leavesBehind types p o = false) ∧
    (∀ o f u, s.upsertStart types p o f = some u → (AllOrNothing (upsert types p o f) s u ↔
      u.refusal types p o = none ∨ u.leavesBehind types p o = false)) ∧
    ∀ v, AllOrNothing (setRoot types p v) s (s.rootRead types) ↔ RootHarmless types p s v :=
  ⟨storeGraph_allOrNothing hc, fun _ _ _ h => upsert_allOrNothing hc h,
    fun v => setRoot_allOrNothing hc v⟩

/-- A folder has a field that decodes eagerly, and notes are protected. -/
def folderTypes : Types := fun c =>
  if c = "folder" then
    some { dataSpecs := [{ name := "title", unique := true, entityRef := false },
      { name := "inside" }] }
  else noteTypes c

/-- A note, a folder it lies in, and an empty folder. -/
def noteInFolder : List Event :=
  [.act noteOwner (.construct "note" []),
    .act noteOwner (.construct "folder"
      [("title", .scalar (.str "a")), ("inside", .leaf (.entity 0))]),
    .act noteOwner (.construct "folder" [("title", .scalar (.str "b"))])]

/-- Neither way of storing the first folder is all or nothing, nor is making it the root.
    Each of them is for the second one. -/
theorem registration_allOrNothing_on_folder :
    let s := ((World.start folderTypes).run noteInFolder).store
    (¬AllOrNothing (storeGraph folderTypes noteOwner 1) s s ∧
      (∃ u, s.upsertStart folderTypes noteOwner 1 "title" = some u ∧
        ¬AllOrNothing (upsert folderTypes noteOwner 1 "title") s u) ∧
      ¬AllOrNothing (setRoot folderTypes noteOwner (.leaf (.entity 1))) s
        (s.rootRead folderTypes)) ∧
    AllOrNothing (storeGraph folderTypes noteOwner 2) s s ∧
      (∃ u, s.upsertStart folderTypes noteOwner 2 "title" = some u ∧
        AllOrNothing (upsert folderTypes noteOwner 2 "title") s u) ∧
      AllOrNothing (setRoot folderTypes noteOwner (.leaf (.entity 2))) s
        (s.rootRead folderTypes) := by
  intro s
  rcases World.run_coherent folderTypes noteInFolder with ⟨kind, hw⟩
  rcases registration_allOrNothing hw.store folderTypes noteOwner with ⟨hstore, hupsert, hroot⟩
  have hstart : (s.upsertStart folderTypes noteOwner 1 "title").map (fun u =>
      (u.refusal folderTypes noteOwner 1, u.leavesBehind folderTypes noteOwner 1)) =
      some (some .protectedInEagerField, true) := by decide +kernel
  have hfree : (s.upsertStart folderTypes noteOwner 2 "title").map (fun u =>
      u.refusal folderTypes noteOwner 2) = some none := by decide +kernel
  have hnone : s.rootOid = none := by decide +kernel
  -- On the first folder the walk registers the folder before it refuses the note; the second one it
  -- accepts.
  refine ⟨⟨fun h => ?_, ?_, fun h => ?_⟩, (hstore 2).mpr (Or.inl (by decide +kernel)), ?_, ?_⟩
  · have hone : s.refusal folderTypes noteOwner 1 = some .protectedInEagerField ∧
        s.leavesBehind folderTypes noteOwner 1 = true := by decide +kernel
    rcases (hstore 1).mp h with hno | hno
    · exact absurd (hno.symm.trans hone.1) (by simp)
    · exact absurd (hno.symm.trans hone.2) (by simp)
  · rcases Option.map_eq_some_iff.mp hstart with ⟨u, hu, hcond⟩
    rw [Prod.mk.injEq] at hcond
    refine ⟨u, hu, fun h => ?_⟩
    rcases (hupsert 1 "title" u hu).mp h with hno | hno
    · exact absurd (hno.symm.trans hcond.1) (by simp)
    · exact absurd (hno.symm.trans hcond.2) (by simp)
  · have hrefused : (s.rootMade folderTypes (.leaf (.entity 1))).refusal folderTypes noteOwner
        s.heap.size = some .protectedInEagerField := by decide +kernel
    have hharm := (hroot (.leaf (.entity 1))).mp h
    unfold RootHarmless at hharm
    rw [hnone] at hharm
    exact absurd (hharm.symm.trans hrefused) (by simp)
  · rcases Option.map_eq_some_iff.mp hfree with ⟨u, hu, hcond⟩
    exact ⟨u, hu, (hupsert 2 "title" u hu).mpr (Or.inl hcond)⟩
  · refine (hroot (.leaf (.entity 2))).mpr ?_
    have hfits : (s.rootMade folderTypes (.leaf (.entity 2))).refusal folderTypes noteOwner
        s.heap.size = none := by decide +kernel
    unfold RootHarmless
    rw [hnone]
    exact hfits

/-- The folder cannot be stored, and has an OID from then on. -/
theorem registration_leaves_folder :
    let s := ((World.start folderTypes).run noteInFolder).store
    ∃ t, storeGraph folderTypes noteOwner 1 s = .error .protectedInEagerField t ∧
      (s.heap.get 1).oid = none ∧ (t.heap.get 1).oid = some oidBase ∧
        t.new.get? oidBase = some 1 := by
  intro s
  have hrun : ((fun r => match r with
      | .ok _ _ => none
      | .error e t => some (e, (t.heap.get 1).oid, t.new.get? oidBase) :
        EStateM.Result Err Store Unit → _) (storeGraph folderTypes noteOwner 1 s)) =
      some (.protectedInEagerField, some oidBase, some 1) := by decide +kernel
  have hbefore : (s.heap.get 1).oid = none := by decide +kernel
  cases hstore : storeGraph folderTypes noteOwner 1 s with
  | ok _ t =>
      rw [hstore] at hrun
      cases hrun
  | error e t =>
      rw [hstore] at hrun
      simp only [Option.some.injEq, Prod.mk.injEq] at hrun
      rcases hrun with ⟨rfl, hoid, hnew⟩
      exact ⟨t, rfl, hbefore, hoid, hnew⟩

/-- A value contains a deleted entity: it is one, or holds one at any depth of lists,
    tuples and dictionary values. -/
def HoldsDeleted (s : Store) (v : Val LiveRef) : Prop :=
  ∃ x, LiveRef.entity x ∈ v.leaves ∧ (s.heap.get x).state = .deleted

/-- An assignment of the root refuses a value that contains a deleted entity just if
    its walk comes to one. -/
theorem setRoot_deleted_iff {kind : Nat → String} {s : Store} (hc : Coherent kind s)
    (types : Types) (p : Principal) (v : Val LiveRef) :
    (HoldsDeleted s v → ∃ t, setRoot types p v s = .error .deletedEntity t) ↔
      (HoldsDeleted s v → RootMeetsDeleted types p s v) := by
  rw [setRoot_meets hc v]

/-- A folder that was committed is deleted. -/
def deletedFolder : List Event :=
  [.act noteOwner (.construct "folder" [("title", .scalar (.str "a"))]), .act noteOwner (.store 0),
    .act noteOwner (.commit false), .act noteOwner (.delete 0)]

/-- Its deletion is discarded, and another instance of it is loaded and changed. -/
def loadedFolder : List Event :=
  deletedFolder ++ [.act noteOwner .discard, .act noteOwner (.load oidBase),
    .act noteOwner (.setField 1 "title" (.scalar (.str "b")))]

/-- The deleted folder is not met, so the assignment does not refuse it. It is met when
    another instance is buffered under its OID. -/
theorem setRoot_deleted_on_folder :
    let s := ((World.start folderTypes).run deletedFolder).store
    let s' := ((World.start folderTypes).run loadedFolder).store
    ¬(HoldsDeleted s (.leaf (.entity 0)) →
      ∃ t, setRoot folderTypes noteOwner (.leaf (.entity 0)) s = .error .deletedEntity t) ∧
    HoldsDeleted s' (.leaf (.entity 0)) ∧
      ∃ t, setRoot folderTypes noteOwner (.leaf (.entity 0)) s' = .error .deletedEntity t := by
  intro s s'
  rcases World.run_coherent folderTypes deletedFolder with ⟨kind, hw⟩
  rcases World.run_coherent folderTypes loadedFolder with ⟨kind', hw'⟩
  have hheld : HoldsDeleted s (.leaf (.entity 0)) :=
    ⟨0, by simp [Val.leaves], by decide +kernel⟩
  have hheld' : HoldsDeleted s' (.leaf (.entity 0)) :=
    ⟨0, by simp [Val.leaves], by decide +kernel⟩
  have hnone : s.rootOid = none ∧ s'.rootOid = none := by decide +kernel
  have hwalk : (s.rootMade folderTypes (.leaf (.entity 0))).refusal folderTypes noteOwner
      s.heap.size = none := by decide +kernel
  have hwalk' : (s'.rootMade folderTypes (.leaf (.entity 0))).refusal folderTypes noteOwner
      s'.heap.size = some .deletedEntity := by decide +kernel
  refine ⟨fun h => ?_, hheld', ?_⟩
  · rw [setRoot_deleted_iff hw.store] at h
    have hmeets := h hheld
    unfold RootMeetsDeleted at hmeets
    rw [hnone.1] at hmeets
    exact absurd (hwalk.symm.trans ((meetsDeleted_iff _).mp hmeets)) (by simp)
  · refine (setRoot_deleted_iff hw'.store folderTypes noteOwner _).mpr (fun _ => ?_) hheld'
    unfold RootMeetsDeleted
    rw [hnone.2]
    exact (meetsDeleted_iff _).mpr hwalk'

/-- A deleted folder is made the root, whether its deletion is buffered or committed
    or took back its insert. -/
theorem setRoot_takes_deleted :
    let made := [Event.act noteOwner (.construct "folder" [("title", .scalar (.str "a"))]),
      .act noteOwner (.store 0)]
    let v : Val LiveRef := .seq .list [.leaf (.entity 0)]
    ∀ events ∈ [deletedFolder, deletedFolder ++ [.act noteOwner (.commit false)],
      made ++ [.act noteOwner (.delete 0)]],
      let s := ((World.start folderTypes).run events).store
      HoldsDeleted s v ∧ ¬∃ t, setRoot folderTypes noteOwner v s = .error .deletedEntity t := by
  intro made v events hevents s
  have hholds : LiveRef.entity 0 ∈ v.leaves := by simp [v, Val.leaves, Val.leaves.itemLeaves]
  have hrun : (s.heap.get 0).state = .deleted ∧
      (outcome (setRoot folderTypes noteOwner v s)).isSome = true := by
    simp only [List.mem_cons, List.not_mem_nil, or_false] at hevents
    rcases hevents with rfl | rfl | rfl <;> decide +kernel
  refine ⟨⟨0, hholds, hrun.1⟩, ?_⟩
  rintro ⟨t, ht⟩
  have hok := hrun.2
  rw [ht] at hok
  cases hok

end DataCrystal
