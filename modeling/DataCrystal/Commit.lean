import DataCrystal.Writes

/-!
# The Commit

A commit has three phases. The first registers what the buffered entities lead
to, makes every check that can refuse the commit, encodes the entities and
captures the batch; by its end the captured entities are clean and the buffers
empty. The second hands the batch to storage. The third brings the indexes and
the watermark up to date.

A refused check leaves the buffers alone and takes no transaction id. When the
second phase fails nothing was stored, and the rollback buffers the captured
entities again and gives the transaction id back.

The write gate compares every protected record of the batch with its prior
version, by the labels the prior payload holds; a record without one is new, and
its baseline is what it was given at birth. Root passes without a look.

## Main definitions

* `pending`: What a commit writes.
* `checkWriteGate`: The write gate.
* `encodePending`: The records, the new shapes and the bytes of a batch.
* `p1Capture`, `p2Rollback`, `p3Finalize`: The phases.
* `commit`: The three of them.
-/

namespace DataCrystal

/-- The labels a payload of the given shape holds; a shape without the columns
    predates protection. -/
def decodeLabels (persisted : List String) (payload : List (Val Token)) : Labels :=
  -- All four columns or none count.
  if permFields.all persisted.contains then
    { owner := (persistedValue persisted payload "_dc_owner").toInt?.getD 0
      groups := (persistedValue persisted payload "_dc_groups").toInts?.getD []
      readFloor := (persistedValue persisted payload "_dc_read_floor").toInt?.getD 0
      writeFloor := (persistedValue persisted payload "_dc_write_floor").toInt?.getD 0 }
  else legacyFill

/-- The memberships an actor's payload holds; a shape without the field has
    none. -/
def decodeMemberships (persisted : List String) (payload : List (Val Token)) : Dict ℤ ℤ :=
  if persisted.contains "memberships" then
    (persistedValue persisted payload "memberships").toLevels
  else Dict.empty

/-- What encoding the buffered entities produced. -/
structure EncodedBatch where
  records : List (Nat × Nat × List (Val Token)) := []
  newTypes : List TypeRow := []
  blobs : List (Nat × List Nat) := []
  streams : List Nat := []
  /-- The blob fields whose value becomes a handle once it is stored. -/
  blobSwaps : List (Nat × String × Nat × List Nat) := []

/-- What the first phase hands to the others. -/
structure Capture where
  tid : Nat
  batch : CommitBatch
  indexEntries : List IndexEntry
  refEntries : List RefEntry
  /-- The captured entities with the state they were in. -/
  flipped : List (Nat × Nat × EntityState)
  deletes : List (Nat × String × Option Nat)
  blobSwaps : List (Nat × String × Nat × List Nat)

namespace Store

/-- The buffered entities; a buffered delete wins over a buffered write. -/
def pending (s : Store) : Dict Nat Nat :=
  (s.dirty.entries.foldl (fun d e => d.set e.1 e.2) s.new).filterKeys fun oid =>
    !s.deleted.contains oid

/-- The values of the maintained fields of the pending entities. -/
def indexEntries (types : Types) (s : Store) : List IndexEntry :=
  s.pending.entries.filterMap fun e =>
    let ent := s.heap.get e.2
    let ti := types.info ent.cls
    -- A class without maintained fields is in the extent only.
    if ti.maintainedFields.isEmpty then none
    else some (e.1, ent.cls, ClassIndexes.entryOf ti ent.field)

/-- The OID a live reference is stored as, if it has one. -/
def liveRefOid (s : Store) (r : LiveRef) : Option Nat :=
  match r with
  | .entity o => (s.heap.get o).oid
  | .lazy oid target => oid.or (target.bind fun o => (s.heap.get o).oid)
  | _ => none

/-- The OIDs an entity refers to. -/
def harvestLiveRefs (types : Types) (s : Store) (o : Nat) : Finset Nat :=
  ((((s.info types o).fieldNames.flatMap fun f => ((s.heap.get o).field f).leaves)).filterMap
    s.liveRefOid).toFinset

/-- The references of the pending entities, if the reverse index is built. -/
def refEntries (types : Types) (s : Store) : List RefEntry :=
  if s.index.reverse.isSome then
    s.pending.entries.map fun e => (e.1, s.harvestLiveRefs types e.2)
  else []

/-- The labels of a stored record. -/
def priorLabels (s : Store) (rec : StoredRecord) : Labels :=
  decodeLabels (s.persistedFields rec.cid) rec.payload

def priorActorMemberships (s : Store) (rec : StoredRecord) : Dict ℤ ℤ :=
  decodeMemberships (s.persistedFields rec.cid) rec.payload

/-- The check of a protected record without a prior one; its baseline is what
    it was given at birth. -/
def gateNewRecord (p : Principal) (s : Store) (oid : Nat) (staged : Labels) :
    Except Denial Labels :=
  if p.uid = 0 then .error .anonymousCreate
  else
    -- A retry has no baseline left, and takes the staged owner.
    let base := s.birthLabels.getD oid ⟨staged.owner, [], viewer, viewer⟩
    if staged.owner ≠ base.owner then .error (.forgedOwner staged.owner base.owner)
    else .ok base

/-- The record a pending entity overwrites; a new entity overwrites none. -/
def priorRecord (s : Store) (oid : Nat) : Option StoredRecord :=
  if s.new.contains oid then none else s.backend.objects.get? oid

/-- What a principal must hold to write one protected record. -/
def gateRecord (p : Principal) (s : Store) (e : Nat × Nat) : Except Denial Unit := do
  let ent := s.heap.get e.2
  -- A record on disk is judged by its labels there, a new one by those it was born with.
  let prior := s.priorRecord e.1
  let base ←
    match prior with
    | none => gateNewRecord p s e.1 ent.labels
    | some rec => gatePersistedRecord p ent.labels (s.priorLabels rec)
  gateLabelChanges p ent.labels base
  -- The memberships of an actor have a gate of their own.
  if ent.cls = actorCls then
    gateActorMemberships p (ent.data "memberships").toLevels
      ((prior.map s.priorActorMemberships).getD Dict.empty)
  else .ok ()

/-- What a principal must hold to delete one protected record. -/
def gateDeletion (p : Principal) (s : Store) (oid : Nat) : Except Err Unit :=
  match s.backend.objects.get? oid with
  | none => .error (.missingPrior oid)
  | some rec => (gateDelete p (s.priorLabels rec)).mapError .writeDenied

/-- The write gate: every protected record of the batch, unless root acts. -/
def checkWriteGate (types : Types) (p : Principal) (s : Store) : Except Err Unit :=
  if isRoot p then .ok ()
  else do
    -- Records in the order of the buffers, deletions behind them.
    (s.pending.entries.filter fun e => s.isProtected types e.2).forM fun e =>
      (gateRecord p s e).mapError .writeDenied
    (s.deleted.entries.filter fun d => (types.info d.2.1).isProtected).forM fun d =>
      gateDeletion p s d.1

/-- Every check that must refuse a commit before it takes a transaction id. -/
def validateBeforeTid (types : Types) (p : Principal) : M Unit := do
  let s ← get
  -- The keys a deletion of this commit frees count as free.
  onIndex (IndexManager.checkUnique types s.backend s.lineageFor (s.indexEntries types)
    s.deleted.keys)
  let t ← get
  let _ ← ofExcept (IndexManager.checkSortedTemporal types t.index (s.indexEntries types))
  ofExcept (s.checkWriteGate types p)

/-- Start a new shape of a class. -/
def addShape (c : String) (names : List String) (s : Store) : Store :=
  { s with
    alloc := { s.alloc with nextCid := s.alloc.nextCid + 1 }
    typeRows := s.typeRows ++ [(s.alloc.nextCid, c, names)] }

/-- The shape id of a class: the latest one, if it has the fields of the class. -/
def cidFor (types : Types) (c : String) : M Nat := do
  let s ← get
  let names := (types.info c).fieldNames
  -- Other fields, or the same in another order, are another shape.
  match (s.cidByTypename c).filter fun cid => s.persistedFields cid = names with
  | some cid => pure cid
  | none =>
    modify (addShape c names)
    pure s.alloc.nextCid

/-- A batch carries every shape it uses that is not durable yet. -/
def noteShape (s : Store) (row : TypeRow) (rows : List TypeRow) : List TypeRow :=
  if s.durableCids.contains row.1 || rows.any fun r => r.1 = row.1 then rows else rows ++ [row]

/-- The token a live reference is stored as. -/
def oidForEncode (s : Store) (r : LiveRef) : Except Err Token :=
  match r with
  | .entity o =>
    match (s.heap.get o).oid with
    | some oid => .ok (.ref oid)
    | none => .error .escapedDiscovery
  -- A handle that was never resolved has the OID of its token, or none.
  | .lazy oid none =>
    match oid with
    | some oid => .ok (.ref oid)
    | none => .error .unstorable
  | .lazy _ (some o) =>
    match (s.heap.get o).oid with
    | some oid => .ok (.ref oid)
    | none => .error .escapedDiscovery
  | _ => .error .unstorable

/-- Read a source through: its bytes, if they are as many as it declares. -/
def hashBlobSource (size : Nat) (r : Opening) : Except Err (List Nat) :=
  if r.raises then .error .sourceRaised
  else if r.chunks.flatten.length ≠ size then .error .blobSize
  else .ok r.chunks.flatten

/-- The bytes that a blob field brings, and whether they are streamed in. -/
structure RawBlob where
  streamed : Bool
  content : Except Err (List Nat)

/-- The raw bytes of a blob field: given whole, or by a source. -/
def rawBytes (v : Val LiveRef) : Option RawBlob :=
  match v with
  | .scalar (.bytes content) => some ⟨false, .ok content⟩
  | .leaf (.source size next) => some ⟨true, hashBlobSource size next⟩
  | _ => none

/-- The descriptor of a blob value that is stored already, or is absent. -/
def storedBlob (v : Val LiveRef) : Except Err (Val Token) :=
  match v with
  | .none => .ok .none
  | .leaf (.blob oid content) => .ok (.leaf (.blob oid content))
  | _ => .error .unstorable

/-- Store raw bytes under an OID of their own. -/
def sinkBlob (o : Nat) (f : String) (raw : RawBlob) (out : EncodedBatch) :
    M (Val Token × EncodedBatch) := do
  let s ← get
  let oid := s.alloc.nextOid
  -- The OID is taken whether or not the content can be read.
  modify fun t => { t with alloc := { t.alloc with nextOid := t.alloc.nextOid + 1 } }
  let content ← ofExcept raw.content
  pure (.leaf (.blob oid content), { out with
    -- What a source streams is written from the source, by the backend.
    blobs := out.blobs ++ [(oid, content)]
    streams := if raw.streamed then out.streams ++ [oid] else out.streams
    blobSwaps := out.blobSwaps ++ [(o, f, oid, content)] })

/-- The payload value of one field. -/
def encodeField (o : Nat) (spec : FieldSpec) (out : EncodedBatch) :
    M (Val Token × EncodedBatch) := do
  let s ← get
  let v := (s.heap.get o).field spec.name
  if spec.blob then
    -- Bytes go to a blob of their own, a handle on stored bytes stays as it is.
    match rawBytes v with
    | some raw => sinkBlob o spec.name raw out
    | none =>
      let w ← ofExcept (storedBlob v)
      pure (w, out)
  else
    let w ← ofExcept (v.encode s.oidForEncode)
    pure (w, out)

/-- The payload of an entity. -/
def encodeFields (o : Nat) : List FieldSpec → EncodedBatch →
    M (List (Val Token) × EncodedBatch)
  | [], out => pure ([], out)
  | spec :: specs, out => do
    let (v, out') ← encodeField o spec out
    let (vs, out'') ← encodeFields o specs out'
    pure (v :: vs, out'')

/-- Encode one pending entity. -/
def encodeEntity (types : Types) (out : EncodedBatch) (e : Nat × Nat) : M EncodedBatch := do
  let s ← get
  let c := (s.heap.get e.2).cls
  let cid ← cidFor types c
  -- The shape goes to the type dictionary with its first record.
  let rows := s.noteShape (cid, c, (types.info c).fieldNames) out.newTypes
  let (payload, out') ← encodeFields e.2 (types.info c).specs { out with newTypes := rows }
  pure { out' with records := out'.records ++ [(e.1, cid, payload)] }

/-- Encode the pending entities. -/
def encodePending (types : Types) (entries : List (Nat × Nat)) : M EncodedBatch :=
  entries.foldlM (encodeEntity types) {}

/-- The batch of a capture. -/
def buildBatch (s : Store) (out : EncodedBatch) : CommitBatch where
  tid := s.alloc.nextTid
  records := out.records.map fun r => ⟨r.1, r.2.1, s.alloc.nextTid, r.2.2⟩
  newTypes := out.newTypes
  -- The marks behind this batch, not before it.
  marks := ⟨s.alloc.nextOid, s.alloc.nextCid, s.alloc.nextTid + 1, s.rootOid⟩
  deletes := s.deleted.keys
  blobs := out.blobs
  streams := out.streams

/-- Take a captured entity to the clean state and register it. The containers
    of a frozen one are bound to it from here on. -/
def flipOne (types : Types) (s : Store) (e : Nat × Nat) : Store :=
  { s.modifyEntity e.2 fun ent =>
      { ent with state := .clean, bound := ent.bound || (types.info ent.cls).frozen } with
    registry := s.registry.set e.1 e.2 }

/-- What the first phase captures, in the state it encoded the entities in. -/
def captureOf (types : Types) (s : Store) (refs : List RefEntry) (out : EncodedBatch) :
    Capture where
  tid := s.alloc.nextTid
  batch := s.buildBatch out
  indexEntries := s.indexEntries types
  refEntries := refs
  -- The state each had before the flip, for a rollback.
  flipped := s.pending.entries.map fun e => (e.1, e.2, (s.heap.get e.2).state)
  deletes := s.deleted.entries
  blobSwaps := out.blobSwaps

/-- Take the transaction id, flip the captured entities and empty the buffers. -/
def settle (types : Types) (s : Store) : Store :=
  { s.pending.entries.foldl (flipOne types) s with
    alloc := { s.alloc with nextTid := s.alloc.nextTid + 1 }
    new := Dict.empty, dirty := Dict.empty, deleted := Dict.empty
    birthLabels := Dict.empty, cancelledNew := Dict.empty }

/-- The first phase: nothing to commit, or a capture. -/
def p1Capture (types : Types) (p : Principal) : M (Option Capture) := do
  discoverNewGraphs types p
  let s ← get
  -- Nothing was buffered: no transaction.
  if s.pending.entries.isEmpty && s.deleted.entries.isEmpty then pure none
  else
    -- Every check is before the transaction has a number.
    validateBeforeTid types p
    let out ← encodePending types s.pending.entries
    let t ← get
    -- Settled before the batch is stored, so a write that races it is the next commit's.
    modify (settle types)
    pure (some (t.captureOf types (s.refEntries types) out))

/-- Buffer one captured entity again. -/
def restoreOne (s : Store) (e : Nat × Nat × EntityState) : Store :=
  if e.2.2 = .new then
    { s.setState e.2.1 .new with dirty := s.dirty.erase e.1, new := s.new.set e.1 e.2.1 }
  else { s.setState e.2.1 .dirty with dirty := s.dirty.set e.1 e.2.1 }

/-- Undo the first phase after a failed second one. -/
def p2Rollback (cap : Capture) (s : Store) : Store :=
  let s' := cap.flipped.foldl restoreOne { s with alloc := { s.alloc with nextTid := cap.tid } }
  { s' with deleted := cap.deletes.foldl (fun d e => d.set e.1 e.2) s'.deleted }

/-- The identity of an entity ends with its record. -/
def dropDeleted (s : Store) (d : Nat × String × Option Nat) : Store :=
  let s' :=
    -- An instance that was loaded since the delete ends as well.
    match d.2.2.or (s.registry.get? d.1) with
    | some o => s.setState o .deleted
    | none => s
  { s' with registry := s'.registry.erase d.1 }

/-- The live field of stored bytes is a handle on them. -/
def swapBlob (s : Store) (w : Nat × String × Nat × List Nat) : Store :=
  s.modifyEntity w.1 fun e =>
    { e with data := Function.update e.data w.2.1 (.leaf (.blob w.2.2.1 w.2.2.2)) }

/-- The references and the deletions of a commit, folded into the indexes. -/
def foldRest (cap : Capture) (m : IndexManager) : IndexManager :=
  ((m.applyReverse cap.refEntries).applyDeletes (cap.deletes.map fun d => (d.1, d.2.1))).removeReverse
    (cap.deletes.map Prod.fst)

/-- The rest of the third phase, after the index has taken the written
    entities in. -/
def finishCommit (cap : Capture) (s : Store) : Store :=
  -- A deleted instance is barred, and its name forgotten.
  let s' := cap.deletes.foldl dropDeleted { s with index := foldRest cap s.index }
  let s'' := cap.blobSwaps.foldl swapBlob s'
  { s'' with
    pendingUpserts := Dict.empty
    -- The stamps of what was written are consumed.
    prestampLabels := s.prestampLabels.filterKeys fun oid =>
      !cap.flipped.any fun e => e.1 = oid
    durableCids := s.durableCids ++ cap.batch.newTypes.map Prod.fst
    lastTid := cap.tid }

/-- The third phase. -/
def p3Finalize (cap : Capture) : M Nat := do
  onIndex (IndexManager.apply cap.indexEntries)
  modify (finishCommit cap)
  pure cap.tid

/-- Hand the batch to storage. -/
def applyBatch (batch : CommitBatch) (s : Store) : Store :=
  { s with backend := s.backend.apply batch }

/-- Persist all buffered changes; the transaction id, or nothing if there were
    none. `fault` is whether storage refuses the batch. -/
def commit (types : Types) (p : Principal) (fault : Bool) : M (Option Nat) := do
  let captured ← p1Capture types p
  match captured with
  | none => pure none
  | some cap =>
    -- Storage refuses: the capture goes back into the buffers.
    if fault then
      modify (p2Rollback cap)
      throw .backend
    else
      -- Stored; what raises from here on leaves the batch on disk.
      modify (applyBatch cap.batch)
      let tid ← p3Finalize cap
      pure (some tid)

end Store

end DataCrystal
