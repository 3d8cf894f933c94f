import DataCrystal.Graph

/-!
# Loading

The way from a record back to an entity. A load registers a bare object, a
shell, for every entity of the eager closure before it fills in any field, so a
reference back to an object in progress finds its shell. If a field cannot be
filled, every shell the load made is taken out of the registry again.

The shells are filled in the order they were made, and they are made at the end
of the heap, so the queue of objects to fill is a range of the heap.

A reference in a lazy field becomes a handle. A reference to a protected entity
becomes a handle wherever it stands.

## Main definitions

* `link`, `resolve`: The object or handle of a reference.
* `fillEntity`: The fields of a shell.
* `materializeGraph`: A load.
* `loadOid`: The live instance of an OID.
* `resolveRegistryActor`, `actingAs`: The principal of a registered actor.
-/

namespace DataCrystal

/-- The process has a class of this name. -/
def Types.declares (types : Types) (c : String) : Bool :=
  c = rootCls || c = actorCls || (types c).isSome

/-- The value of a field for a live entity: from the record, or the fill of a
    field its shape lacks. -/
def hydrationValue (ti : TypeInfo) (persisted : List String) (payload : List (Val Token))
    (name : String) : Except Err (Val Token) :=
  if persisted.contains name then .ok (persistedValue persisted payload name)
  else
    -- A field that came with a later shape: the default, or the legacy label.
    match ti.fill name with
    | some v => .ok v
    | none => .error (.schemaMismatch name)

/-- `object.__setattr__(obj, name, v)`: a write no hook sees. -/
def Entity.assign (e : Entity) (name : String) (v : Val LiveRef) : Entity :=
  match name with
  -- The label columns are slots of their own.
  | "_dc_owner" => { e with labels := { e.labels with owner := v.toInt?.getD 0 } }
  | "_dc_groups" => { e with labels := { e.labels with groups := v.toInts?.getD [] } }
  | "_dc_read_floor" => { e with labels := { e.labels with readFloor := v.toInt?.getD 0 } }
  | "_dc_write_floor" => { e with labels := { e.labels with writeFloor := v.toInt?.getD 0 } }
  | _ => { e with data := Function.update e.data name v }

/-- `bool(value)`. -/
def Val.truthy {ρ : Type} : Val ρ → Bool
  | .none => false
  | .scalar (.num _ (.fin q)) => q ≠ 0
  | .scalar (.str s) => s ≠ ""
  | .scalar (.bytes b) => !b.isEmpty
  | .seq _ xs => !xs.isEmpty
  | .dict xs => !xs.isEmpty
  | _ => true

/-- The value of a data field with the handles on an OID loaded or demoted. -/
def Val.withHandle (oid : Nat) (target : Option Nat) (v : Val LiveRef) : Val LiveRef :=
  v.mapLeaves (m := Id) fun r =>
    match r with
    | .lazy (some k) t => .lazy (some k) (if k = oid then target else t)
    | r => r

namespace Store

/-- The class of a shape id, which this process must have. -/
def tiForCid (types : Types) (cid : Nat) : M String := do
  let s ← get
  match s.typenameByCid cid with
  | none => throw (.unknownTypeId cid)
  | some c => if types.declares c then pure c else throw (.unregisteredType c)

/-- Register a bare object for a record. -/
def pushShell (c : String) (oid : Nat) (s : Store) : Store :=
  { s with
    heap := s.heap.push { cls := c, oid := some oid, state := .clean, hydrated := true }
    registry := s.registry.set oid s.heap.size }

/-- The object of a reference, as a shell if there is none. Only the first
    object of a load may be protected. -/
def link (types : Types) (root : Bool) (oid : Nat) : M LiveRef := do
  let s ← get
  match s.registry.get? oid with
  -- An eager reference to a protected instance stays a handle, except from the root.
  | some o => pure (if !root && s.isProtected types o then .lazy (some oid) none else .entity o)
  | none =>
    match s.backend.objects.get? oid with
    | none => throw (.danglingRef oid)
    | some rec =>
      let c ← tiForCid types rec.cid
      -- The target is not loaded, so a read of it comes to the gate.
      if !root && (types.info c).isProtected then pure (.lazy (some oid) none)
      else
        modify (pushShell c oid)
        pure (.entity s.heap.size)

/-- The loaded object a lazy handle starts with: never a protected one. -/
def loadedTarget (types : Types) (s : Store) (oid : Nat) : Option Nat :=
  (s.registry.get? oid).filter fun o => !s.isProtected types o

/-- A reference of a payload as a live one. -/
def resolveToken (types : Types) (lazyRefs : Bool) (t : Token) : M LiveRef := do
  match t with
  | .blob oid content => pure (.blob oid content)
  | .ref oid =>
    -- A lazy field keeps the id, with the target if it is loaded and open to all.
    if lazyRefs then
      let s ← get
      pure (.lazy (some oid) (s.loadedTarget types oid))
    -- An eager one gives a shell, which is filled in its turn.
    else link types false oid

def resolve (types : Types) (lazyRefs : Bool) (v : Val Token) : M (Val LiveRef) :=
  v.mapLeaves (resolveToken types lazyRefs)

/-- Fill one field of a shell. -/
def fillField (types : Types) (o : Nat) (e : FieldSpec × Val Token) : M Unit := do
  let v ← resolve types e.1.lazyRefs e.2
  modify (modifyEntity o fun ent => ent.assign e.1.name v)

/-- What the fields of a class read from a record. -/
def hydrationPlan (ti : TypeInfo) (persisted : List String) (payload : List (Val Token)) :
    Except Err (List (FieldSpec × Val Token)) :=
  ti.specs.mapM fun spec =>
    (hydrationValue ti persisted payload spec.name).map fun v => (spec, v)

/-- Fill the fields of a shell from its record. -/
def fillEntity (types : Types) (o : Nat) : M Unit := do
  let s ← get
  match (s.heap.get o).oid.bind s.backend.objects.get? with
  -- The shell has no record: it stays as it is.
  | none => pure ()
  | some rec =>
    let persisted := s.persistedFields rec.cid
    -- The plan is of the shape the record was written under.
    let plan ← ofExcept (hydrationPlan (s.info types o) persisted rec.payload)
    -- A record and its dictionary row that disagree are damage, not evolution.
    raiseIf (rec.payload.length != persisted.length) (.schemaMismatch "")
    plan.forM (fillField types o)

/-- Fill every shell from `o` on, those made on the way included. -/
def fillShells (types : Types) : Nat → Nat → M Unit
  | 0, _ => pure ()
  | fuel + 1, o => do
    let s ← get
    -- Shells are appended, so the queue is the heap from here on.
    if o < s.heap.size then
      fillEntity types o
      fillShells types fuel (o + 1)
    else pure ()

/-- Take an object's OID out of the registry. -/
def unregister (s : Store) (o : Nat) : Store :=
  match (s.heap.get o).oid with
  | some oid => { s with registry := s.registry.erase oid }
  | none => s

/-- Take every shell from `start` on out of the registry. -/
def unregisterFrom (start : Nat) (s : Store) : Store :=
  (List.range' start (s.heap.size - start)).foldl unregister s

/-- Load an entity and its eager closure; a load makes at most one shell a
    record. -/
def materializeGraph (types : Types) (oid : Nat) : M Nat := do
  let s ← get
  let loaded ← attempt do
    let _ ← link types true oid
    -- Each record is a shell at most once, so this many rounds drain the queue.
    fillShells types (s.backend.objects.entries.length + 1) s.heap.size
  match loaded with
  | .ok _ => pure s.heap.size
  | .error e =>
    -- What this load registered is forgotten, what was there before stays.
    modify (unregisterFrom s.heap.size)
    throw e

/-- The live instance of an OID, loaded if there is none. -/
def loadOid (types : Types) (oid : Nat) : M Nat := do
  let s ← get
  match s.registry.get? oid with
  | some o => pure o
  | none => materializeGraph types oid

/-- Load the target of the handles on an OID in a field; a protected target is
    never kept in a handle. -/
def derefHandle (types : Types) (o : Nat) (f : String) (oid : Nat) : M Unit := do
  let t ← loadOid types oid
  let s ← get
  -- Read again at every access, by whoever reads.
  if s.isProtected types t then pure ()
  else
    modify (modifyEntity o fun e =>
      { e with data := Function.update e.data f ((e.data f).withHandle oid (some t)) })

/-- Demote the handles on an OID in a field. -/
def demoteHandle (o : Nat) (f : String) (oid : Nat) : M Unit :=
  modify (modifyEntity o fun e =>
    { e with data := Function.update e.data f ((e.data f).withHandle oid none) })

/-- The instance under a unique key, whoever asks. -/
def getByKeyUnchecked (types : Types) (c f : String) (v : Val LiveRef) : M (Option Nat) := do
  let holder ← holderOf types c f v
  match holder with
  | none => pure none
  | some oid =>
    let o ← loadOid types oid
    pure (some o)

/-- The sponsor of an actor that is no human must be a registered human. -/
def checkSponsor (types : Types) (uid : ℤ) (sponsor : Val LiveRef) : M Unit := do
  -- An actor that is no human and names nobody.
  raiseIf (sponsor matches .none) (.sponsorRequired uid)
  let found ← getByKeyUnchecked types actorCls "uid" sponsor
  let s ← get
  match found with
  | none => throw (.sponsorRequired uid)
  | some o => raiseIf (!((s.heap.get o).data "human").truthy) (.sponsorRequired uid)

/-- The committed actor of a uid. -/
def resolveRegistryActor (types : Types) (uid : ℤ) : M Nat := do
  let found ← getByKeyUnchecked types actorCls "uid" (.int uid)
  match found with
  | none => throw (.unknownActor uid)
  | some o =>
    let s ← get
    let actor := s.heap.get o
    -- An identity is durable before it acts.
    raiseIf (actor.state = .new || actor.state = .dirty) (.uncommittedActor uid)
    -- Anything but a human names one that answers for it.
    if (actor.data "human").truthy then pure o
    else
      checkSponsor types uid (actor.data "sponsor")
      pure o

/-- The principal that acts as a registered uid. -/
def actingAs (types : Types) (uid : ℤ) : M Principal := do
  let o ← resolveRegistryActor types uid
  let s ← get
  let actor := s.heap.get o
  pure ⟨(actor.data "uid").toInt?.getD 0, (actor.data "memberships").toLevels⟩

end Store

end DataCrystal
