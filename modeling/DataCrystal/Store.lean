import DataCrystal.Lib.Raise
import DataCrystal.Permissions
import DataCrystal.Index.Manager

/-!
# The Store

The state of an open store and the operations that change single entities.

A store buffers what the next commit will write: new entities, changed ones and
deletions, each under its OID. Next to the buffers it keeps the labels new
protected records were born with, which the write gate takes as their baseline,
and the entities whose insert a deletion cancelled. `loadState` derives the rest
from storage: the allocator, the root, the type lineage and the indexes.

All operations are programs that keep what they have done when they raise. The
acting principal is an argument of the operations that look at it.

## Main definitions

* `Store`: The state.
* `loadState`, `refresh`, `discard`: Going back to what storage holds.
* `touch`, `setField`, `setLabel`, `markDirty`: Writes to one entity.
* `deleteInstance`, `deleteByKey`: Buffering a deletion.
* `ensureIndex`: The indexes of a class.
-/

namespace DataCrystal

/-- The next ids to hand out. -/
structure IdAllocator where
  nextOid : Nat
  nextCid : Nat
  nextTid : Nat
  deriving DecidableEq

/-- The state of an open store. -/
structure Store where
  heap : Heap
  /-- The live instance of an OID, if there is one. -/
  registry : Dict Nat Nat
  new : Dict Nat Nat
  dirty : Dict Nat Nat
  /-- The class and the live instance, if any, of every OID to delete. -/
  deleted : Dict Nat (String × Option Nat)
  birthLabels : Dict Nat Labels
  prestampLabels : Dict Nat Labels
  cancelledNew : Dict Nat Nat
  /-- The entities the upserts of this batch buffered, by class, field and key. -/
  pendingUpserts : Dict (String × String × Key) Nat
  rootOid : Option Nat
  rootHolder : Option Nat
  alloc : IdAllocator
  lastTid : Nat
  /-- The rows of the type dictionary known in memory, oldest first. -/
  typeRows : List TypeRow
  durableCids : List Nat
  index : IndexManager
  backend : Backend

namespace Store

/-- A program on a store. -/
abbrev M := EStateM Err Store

/-- Derive the state a boot reads from storage. -/
def loadState (cacheBlobs : Option (Dict String IndexBlob)) (reverseBlob : Option RefEdges)
    (s : Store) : Store :=
  { s with
    alloc := ⟨s.backend.marks.nextOid, s.backend.marks.nextCid, s.backend.marks.nextTid⟩
    -- The last transaction is the one before the next.
    lastTid := s.backend.marks.nextTid - 1
    rootOid := s.backend.marks.rootOid
    typeRows := s.backend.types
    -- A class id in the type dictionary need not be written again.
    durableCids := s.backend.types.map Prod.fst
    -- The indexes of the session before are gone with it.
    index := { cacheBlobs := cacheBlobs, reverseBlob := reverseBlob } }

/-- Open a store over a backend, with the blobs of a sidecar if it had any. -/
def boot (cacheBlobs : Option (Dict String IndexBlob)) (reverseBlob : Option RefEdges)
    (b : Backend) : Store :=
  loadState cacheBlobs reverseBlob
    { heap := Heap.empty, registry := Dict.empty, new := Dict.empty, dirty := Dict.empty
      deleted := Dict.empty, birthLabels := Dict.empty, prestampLabels := Dict.empty
      cancelledNew := Dict.empty, pendingUpserts := Dict.empty, rootOid := none
      rootHolder := none, alloc := ⟨0, 0, 0⟩, lastTid := 0, typeRows := [], durableCids := []
      index := {}, backend := b }

/-- The class of an object. -/
def info (types : Types) (s : Store) (o : Nat) : TypeInfo := types.info (s.heap.get o).cls

def isProtected (types : Types) (s : Store) (o : Nat) : Bool := (s.info types o).isProtected

/-- Change one object. -/
def modifyEntity (o : Nat) (f : Entity → Entity) (s : Store) : Store :=
  { s with heap := s.heap.set o (f (s.heap.get o)) }

def setState (o : Nat) (st : EntityState) (s : Store) : Store :=
  s.modifyEntity o fun e => { e with state := st }

/-- The latest shape id of a class. -/
def cidByTypename (s : Store) (c : String) : Option Nat :=
  (s.typeRows.reverse.find? fun row => row.2.1 = c).map fun row => row.1

/-- The class of a shape id. -/
def typenameByCid (s : Store) (cid : Nat) : Option String :=
  (s.typeRows.find? fun row => row.1 = cid).map fun row => row.2.1

/-- The fields of a shape id. -/
def persistedFields (s : Store) (cid : Nat) : List String :=
  ((s.typeRows.find? fun row => row.1 = cid).map fun row => row.2.2).getD []

/-- Every shape a class ever had. -/
def lineageFor (s : Store) (c : String) : Lineage :=
  (s.typeRows.filter fun row => row.2.1 = c).map fun row => (row.1, row.2.2)

/-- Run a program on the index manager. -/
def onIndex {α : Type} (prog : EStateM Err IndexManager α) : M α :=
  zoom Store.index (fun m s => { s with index := m }) prog

/-- The indexes of a class. -/
def ensureIndex (types : Types) (c : String) : M ClassIndexes := do
  let s ← get
  onIndex (IndexManager.ensure types s.backend (s.lineageFor c) c)

/-- The reverse postings. -/
def ensureReverse : M Unit :=
  modify fun s =>
    { s with index := s.index.ensureReverse s.backend (s.typeRows.map Prod.fst) }

/-- The value of a name in a list of fields; an absent one is `None`. -/
def fieldIn (fields : List (String × Val LiveRef)) (name : String) : Val LiveRef :=
  ((fields.find? fun e => e.1 = name).map Prod.snd).getD .none

/-- Make a new entity object. -/
def construct (types : Types) (c : String) (fields : List (String × Val LiveRef)) (s : Store) :
    Store :=
  { s with
    heap := s.heap.push { cls := c, data := fieldIn fields, bound := !(types.info c).frozen } }

/-- The first write to a clean entity buffers it. -/
def onFirstWrite (o : Nat) (s : Store) : Store :=
  let s' := s.setState o .dirty
  match (s.heap.get o).oid with
  | some oid => { s' with dirty := s'.dirty.set oid o }
  | none => s'

/-- What every write does first: buffer a clean entity, refuse a deleted one. -/
def touch (o : Nat) : M Unit := do
  let s ← get
  match (s.heap.get o).state with
  | .deleted => throw .deletedEntity
  | .clean => modify (onFirstWrite o)
  -- New and dirty entities are buffered already.
  | _ => pure ()

/-- Assign a declared field, or change a container in it. -/
def setField (types : Types) (o : Nat) (f : String) (v : Val LiveRef) : M Unit := do
  let s ← get
  if (s.info types o).frozen then throw .frozenEntity
  else
    touch o
    modify (modifyEntity o fun e => { e with data := Function.update e.data f v })

/-- Change a container of a frozen entity that is not bound to it yet: no hook
    sees the change. -/
def editUnbound (types : Types) (o : Nat) (f : String) (v : Val LiveRef) : M Unit := do
  let s ← get
  if (s.info types o).frozen && !(s.heap.get o).bound then
    modify (modifyEntity o fun e => { e with data := Function.update e.data f v })
  else throw .frozenEntity

/-- An assignment to a label column. -/
inductive LabelWrite
  | owner (uid : ℤ)
  | groups (gs : List ℤ)
  | readFloor (lvl : ℤ)
  | writeFloor (lvl : ℤ)

def LabelWrite.run (w : LabelWrite) (l : Labels) : Labels :=
  match w with
  | .owner uid => { l with owner := uid }
  | .groups gs => { l with groups := gs }
  | .readFloor lvl => { l with readFloor := lvl }
  | .writeFloor lvl => { l with writeFloor := lvl }

/-- Assign a label column, or change the list of groups. -/
def setLabel (types : Types) (o : Nat) (w : LabelWrite) : M Unit := do
  let s ← get
  -- A class without protection has no such columns.
  if !s.isProtected types o then throw .unstorable
  else if (s.info types o).frozen then throw .frozenEntity
  else
    touch o
    modify (modifyEntity o fun e => { e with labels := w.run e.labels })

/-- Assign all four label columns, one after the other. -/
def setPermissions (types : Types) (o : Nat) (l : Labels) : M Unit := do
  setLabel types o (.owner l.owner)
  setLabel types o (.groups l.groups)
  setLabel types o (.readFloor l.readFloor)
  setLabel types o (.writeFloor l.writeFloor)

/-- Take back an insert that is pending: nothing reaches storage. -/
def cancelInsert (o oid : Nat) (s : Store) : Store :=
  { s.setState o .deleted with
    new := s.new.erase oid, dirty := s.dirty.erase oid
    cancelledNew := s.cancelledNew.set oid o }

/-- Buffer a deletion; it wins over a buffered write. -/
def bufferDelete (obj : Option Nat) (oid : Nat) (c : String) (s : Store) : Store :=
  let s' :=
    match obj with
    | some o => s.setState o .deleted
    | none => s
  -- The identity stays in the registry until the commit is durable.
  { s' with dirty := s.dirty.erase oid, deleted := s.deleted.set oid (c, obj) }

/-- Delete an OID whose live instance, if there is one, is at hand. -/
def deleteOid (obj : Option Nat) (oid : Nat) (c : String) : M Bool := do
  let s ← get
  -- The root holder is replaced by an assignment, never deleted.
  if s.rootOid = some oid then throw .rootDelete
  else
    -- An entity that was never committed is taken back.
    match obj.filter fun o => (s.heap.get o).state = .new with
    | some o =>
      modify (cancelInsert o oid)
      pure true
    | none =>
      modify (bufferDelete obj oid c)
      pure true

/-- Delete by instance. -/
def deleteInstance (o : Nat) : M Bool := do
  let s ← get
  raiseIf (s.heap.get o).redacted .readDenied
  match (s.heap.get o).oid with
  -- Never registered: there is nothing to delete.
  | none => pure false
  | some oid =>
    -- A second delete, before the commit or behind it.
    if (s.heap.get o).state = .deleted then pure false
    else deleteOid (some o) oid (s.heap.get o).cls

/-- The OID that holds a unique key, by the committed unique map. -/
def holderOf (types : Types) (c f : String) (v : Val LiveRef) : M (Option Nat) := do
  let s ← get
  -- Nothing of the class was ever stored, so no index is built for it.
  if (s.cidByTypename c).isNone then pure none
  else
    let ci ← ensureIndex types c
    let key ← ofExcept (v.lookupKey.mapError Err.value)
    pure ((key.bind id).bind (ci.holder f))

/-- Delete by unique key. -/
def deleteByKey (types : Types) (c f : String) (v : Val LiveRef) : M Bool := do
  raiseIf (!(types.info c).uniqueFields.contains f) (.notUnique f)
  let holder ← holderOf types c f v
  let s ← get
  match holder with
  | none => pure false
  | some oid =>
    -- Its deletion is buffered already.
    if (s.deleted.get? oid).isSome then pure false
    else deleteOid (s.registry.get? oid) oid c

/-- Take an entity that never became durable back to the untracked state, its
    labels included. -/
def detach (e : Nat × Nat) (s : Store) : Store :=
  let s' := s.modifyEntity e.2 fun ent => { ent with oid := none, state := .new, stampedBy := none }
  match s'.prestampLabels.get? e.1 with
  | some l =>
    -- What the registration stamped is taken off again.
    { s'.modifyEntity e.2 fun ent => { ent with labels := l } with
      prestampLabels := s'.prestampLabels.erase e.1 }
  | none => s'

/-- Drop every cache and buffer and derive the state from storage again. -/
def refresh (s : Store) : Store :=
  -- Without the sidecar: its indexes are of an older watermark.
  loadState none none
    { s with
      registry := Dict.empty, rootHolder := none, new := Dict.empty, dirty := Dict.empty
      birthLabels := Dict.empty, prestampLabels := Dict.empty, cancelledNew := Dict.empty
      deleted := Dict.empty, pendingUpserts := Dict.empty }

/-- Drop all buffered writes. -/
def discard (s : Store) : Store :=
  ((s.new.entries ++ s.cancelledNew.entries).foldl (fun s e => s.detach e) s).refresh

/-- Whether the store itself holds the instance of an OID. -/
def holds (s : Store) (oid : Nat) : Bool :=
  s.new.contains oid || s.dirty.contains oid || s.deleted.contains oid ||
    (s.rootHolder.isSome && s.rootOid = some oid)

/-- The registry is weak: an instance nobody holds is forgotten. -/
def forget (oid : Nat) (s : Store) : Store :=
  if s.holds oid then s else { s with registry := s.registry.erase oid }

end Store

end DataCrystal
