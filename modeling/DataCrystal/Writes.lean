import DataCrystal.Hydration

/-!
# Buffered Writes

The operations that buffer an object graph: `store`, `mark_dirty`, the root
assignment and `upsert`.

An upsert merges into the entity that holds its natural key, by the committed
unique map or by an earlier upsert of the batch, and copies only the fields
whose stored bytes would differ. It is a read-modify-write, so a survivor the
principal may not read refuses it.

## Main definitions

* `storeGraph`, `markDirty`, `setRoot`, `upsert`: The operations.
* `findByKey`: The entity an upsert merges into.
* `Comparison.equivalent`, `equivalent`: Whether a field would be stored with the same
  bytes.
-/

namespace DataCrystal

/-- What an upsert asks of two values of a field, and of each of them. -/
structure Comparison (α η ν : Type) where
  /-- They are one object. -/
  same : α → α → Bool
  /-- A handle on stored bytes, or bytes to be streamed in. -/
  isBlob : α → Bool
  blobHash : α → Option η
  refTargetOid : α → Option ν
  /-- They are of one type, and equal. -/
  equal : α → α → Bool

/-- Whether persisting `new` over `cur` would write the same bytes, as an upsert decides
    it: blobs by their digests, references by their targets, and the rest by equality. -/
def Comparison.equivalent {α η ν : Type} [DecidableEq η] [DecidableEq ν]
    (c : Comparison α η ν) (cur new : α) : Bool :=
  -- One object: nothing to write.
  if c.same cur new then true
  -- A blob against anything else is a change.
  else if c.isBlob cur || c.isBlob new then
    c.blobHash cur = c.blobHash new && (c.blobHash cur).isSome
  -- A handle and its target have one record.
  else if (c.refTargetOid cur).isSome || (c.refTargetOid new).isSome then
    c.refTargetOid cur = c.refTargetOid new && (c.refTargetOid cur).isSome
  else c.equal cur new

namespace Store

/-- Register an object and everything new it leads to. -/
def storeGraph (types : Types) (p : Principal) (o : Nat) : M Unit := do
  let _ ← registerGraph types p o []
  pure ()

/-- Buffer an entity for the next commit. -/
def markDirty (types : Types) (p : Principal) (o : Nat) : M Unit := do
  let s ← get
  raiseIf (s.heap.get o).redacted .readDenied
  match (s.heap.get o).state, (s.heap.get o).oid with
  | .deleted, _ => throw .deletedEntity
  -- Never registered: the whole graph is, as for a store.
  | _, none => storeGraph types p o
  | .clean, some _ => modify (onFirstWrite o)
  -- Buffered already.
  | _, some _ => pure ()

/-- Keep the holder of the root value alive. -/
def pinRoot (o : Nat) (s : Store) : Store := { s with rootHolder := some o }

/-- The root is the entity an object was registered as. -/
def assignRoot (o : Nat) (s : Store) : Store :=
  { s with rootOid := (s.heap.get o).oid, rootHolder := some o }

/-- Delete the record of a root that cannot be loaded. -/
def dropRootRecord (oid : Nat) (s : Store) : Store :=
  { s with deleted := s.deleted.set oid (rootCls, none) }

/-- Make and register a new holder of the root value. -/
def newRootHolder (types : Types) (p : Principal) (v : Val LiveRef) : M Unit := do
  let s ← get
  modify (construct types rootCls [("value", v)])
  storeGraph types p s.heap.size
  modify (assignRoot s.heap.size)

/-- The holder of the root value, pinned or loaded. -/
def rootHolderOf (types : Types) (oid : Nat) : M Nat := do
  let s ← get
  match s.rootHolder with
  | some o => pure o
  | none => loadOid types oid

/-- Read the root value. -/
def loadRoot (types : Types) : M Unit := do
  let s ← get
  match s.rootOid with
  | none => pure ()
  | some oid =>
    let o ← rootHolderOf types oid
    modify (pinRoot o)

/-- Assign the root value. A root that cannot be loaded any more is replaced,
    and its record deleted in the same commit. -/
def setRoot (types : Types) (p : Principal) (v : Val LiveRef) : M Unit := do
  let s ← get
  match s.rootOid with
  -- Nothing is the root yet.
  | none => newRootHolder types p v
  | some oid =>
    let holder ← attempt (rootHolderOf types oid)
    match holder with
    | .ok o =>
      setField types o "value" v
      storeGraph types p o
      modify (pinRoot o)
    -- The record of the holder is gone: the root starts over.
    | .error (.danglingRef _) =>
      modify (dropRootRecord oid)
      newRootHolder types p v
    | .error e => throw e

/-- The OID an entity or a lazy handle points at. -/
def refTargetOid (s : Store) (v : Val LiveRef) : Option Nat :=
  match v with
  | .leaf (.entity o) => (s.heap.get o).oid
  | .leaf (.lazy oid target) => oid.or (target.bind fun o => (s.heap.get o).oid)
  | _ => none

/-- The content of a blob value whose bytes are at hand. -/
def blobContent (v : Val LiveRef) : Option (List Nat) :=
  match v with
  | .leaf (.blob _ content) => some content
  | .scalar (.bytes content) => some content
  | _ => none

/-- A handle on stored bytes, or bytes to be streamed in. -/
def isBlobRef (v : Val LiveRef) : Bool :=
  match v with
  | .leaf (.blob _ _) => true
  | .leaf (.source _ _) => true
  | _ => false

/-- Two values of one host type. -/
def sameType (v w : Val LiveRef) : Bool :=
  match v, w with
  | .none, .none => true
  -- Booleans, integers, floats and decimals are told apart.
  | .scalar (.num k _), .scalar (.num k' _) => k = k'
  | .scalar (.temporal _ _), .scalar (.temporal _ _) => true
  -- Strings and bytes.
  | .scalar s, .scalar t => s.key.family = t.key.family
  | .leaf _, .leaf _ => true
  | .seq k _, .seq k' _ => k = k'
  | .dict _, .dict _ => true
  | _, _ => false

/-- How an upsert compares two values of a store, which have no identity of their own;
    bytes stand for their digest. -/
def comparison (s : Store) : Comparison (Val LiveRef) (List Nat) Nat where
  same _ _ := false
  isBlob := isBlobRef
  blobHash := blobContent
  refTargetOid := s.refTargetOid
  equal cur new := sameType cur new && cur.pyEq new

/-- Whether storing `new` over `cur` would write the same bytes. -/
def equivalent (s : Store) (cur new : Val LiveRef) : Bool := s.comparison.equivalent cur new

/-- The name a natural key was buffered under. -/
def pendingKey (v : Val LiveRef) : Except Err (Option Key) :=
  match v.lookupKey with
  | .ok key => .ok (key.bind id)
  | .error e => .error (.value e)

/-- Whether the acting principal may read the committed record of an OID; an
    absent label row reads as unreadable. -/
def mayRead (p : Principal) (ci : ClassIndexes) (oid : Nat) : Bool :=
  match ci.committedLabels oid with
  | some l => canReadRow p l.1 l.2.1 l.2.2
  | none => false

/-- The committed survivor of a natural key, unless its deletion is buffered. -/
def committedSurvivor (types : Types) (p : Principal) (c f : String) (v : Val LiveRef) :
    M (Option Nat) := do
  let holder ← holderOf types c f v
  let s ← get
  -- The holder is on its way out, which frees the key.
  match holder.filter fun oid => !s.deleted.contains oid with
  | none => pure none
  | some oid =>
    let ci ← ensureIndex types c
    -- A survivor the principal cannot read is refused before it is loaded.
    raiseIf ((types.info c).isProtected && !isRoot p && !mayRead p ci oid) .readDenied
    let o ← loadOid types oid
    pure (some o)

/-- Forget an upsert whose entity lost its key. -/
def forgetUpsert (k : String × String × Key) (s : Store) : Store :=
  { s with pendingUpserts := s.pendingUpserts.erase k }

/-- The survivor of an earlier upsert of the batch, unless it was deleted or
    its key changed since. -/
def pendingSurvivor (c f : String) (v : Val LiveRef) : M (Option Nat) := do
  let key ← ofExcept (pendingKey v)
  let s ← get
  match key.bind fun k => (s.pendingUpserts.get? (c, f, k)).map fun o => (k, o) with
  | none => pure none
  | some (k, o) =>
    let e := s.heap.get o
    -- Its key may have been written over since.
    if e.state ≠ .deleted && (e.field f).pyEq v then pure (some o)
    else
      modify (forgetUpsert (c, f, k))
      pure none

/-- The entity an upsert merges into. -/
def findByKey (types : Types) (p : Principal) (c f : String) (v : Val LiveRef) :
    M (Option Nat) := do
  let committed ← committedSurvivor types p c f v
  match committed with
  -- The committed one comes before any of this batch.
  | some o => pure (some o)
  | none => pendingSurvivor c f v

/-- Copy one data field onto the surviving entity if its bytes would change. -/
def mergeField (types : Types) (existing incoming : Nat) (f : String) : M Unit := do
  let s ← get
  let new := (s.heap.get incoming).data f
  if s.equivalent ((s.heap.get existing).data f) new then pure ()
  else setField types existing f new

/-- Copy the changed data fields; the labels are never copied. -/
def mergeDataFields (types : Types) (existing incoming : Nat) : M Unit := do
  let s ← get
  (s.info types existing).dataFieldNames.forM (mergeField types existing incoming)

/-- Remember a buffered upsert under its natural key. -/
def rememberUpsert (c f : String) (v : Val LiveRef) (o : Nat) (s : Store) : Store :=
  match pendingKey v with
  | .ok (some k) => { s with pendingUpserts := s.pendingUpserts.set (c, f, k) o }
  | _ => s

/-- Insert an object, or merge it into the entity that holds its key. -/
def upsert (types : Types) (p : Principal) (o : Nat) (f : String) : M Unit := do
  let s ← get
  raiseIf (s.heap.get o).redacted .readDenied
  let c := (s.heap.get o).cls
  let v := (s.heap.get o).data f
  raiseIf (!(types.info c).uniqueFields.contains f) (.notUnique f)
  raiseIf (v matches .none) (.noneKey f)
  let existing ← findByKey types p c f v
  match existing with
  -- Nobody holds the key, so the instance is stored as it is.
  | none =>
    storeGraph types p o
    modify (rememberUpsert c f v o)
  | some e =>
    let t ← get
    -- The survivor itself was given.
    if e = o then pure ()
    -- A stored instance may not take the key of another one.
    else if (t.heap.get o).oid.isSome then throw (.uniqueViolation f none)
    else mergeDataFields types e o

end Store

end DataCrystal
