import DataCrystal.Served

/-!
# Followers

A follower is a replica of a coordinator's store. It fetches the deltas the
coordinator serves, turns each into the batch it came from, and applies the
batches to a storage of its own, in memory or in a database file.

There are two ways to replay. A follower that opens replays from the first delta
and checks every delta as a consumer does. A follower that syncs goes on from
where its storage stands and looks at the header and the number of a delta only.
Both skip what they have applied already, and both rebuild the high-water marks
from the ids they meet, since a delta does not carry them.

The table of shapes in a database file takes every shape id once, so a batch
that brings a shape the file has already is refused.

## Main definitions

* `Frame`, `Medium`: What is fetched, and where the replica is kept.
* `deltaToBatch`: The batch of a delta.
* `bootstrapBackend`, `openFollower`: Replaying from the first delta.
* `applyCatchup`, `resync`: Replaying from where the storage stands.
* `contribute`: The commit of a follower.
* `Session`: A follower that opens and syncs.
-/

namespace DataCrystal

/-- A frame of what a coordinator answers: it does not decode, or it is a delta.
    `refused` is whether the storage of the follower fails on it. -/
inductive Frame
  | malformed
  | delta (d : Delta) (refused : Bool)
  deriving DecidableEq

/-- Where a replica is kept. -/
inductive Medium
  | memory
  | sqlite
  deriving DecidableEq

/-- The highest ids met in a replay, and the last root. -/
structure HighWater where
  maxOid : Nat := oidBase - 1
  maxCid : Nat := 0
  root : Option Nat := none
  deriving DecidableEq

/-- The record an operation writes. A delta's writes have payloads. -/
def DeltaOp.record (tid : Nat) (op : DeltaOp) : Option StoredRecord :=
  if op.kind = .upsert then some ⟨op.oid, op.cid, tid, op.payload.getD []⟩ else none

/-- The batch of a delta, and the highest ids behind it. What is no write is a
    deletion, and a delta without a root keeps the last one. -/
def deltaToBatch (d : Delta) (marks : HighWater) : CommitBatch × HighWater :=
  let records := d.ops.filterMap (DeltaOp.record d.tid)
  -- Every other kind of op deletes, as the source asks for an upsert only.
  let deletes := (d.ops.filter fun op => op.kind ≠ .upsert).map DeltaOp.oid
  let maxOid := records.foldl (fun n rec => max n rec.oid) marks.maxOid
  -- A class may be new in the types or known from an op.
  let maxCid := d.types.foldl (fun n row => max n row.1)
    (d.ops.foldl (fun n op => max n op.cid) marks.maxCid)
  let root := d.rootOid.or marks.root
  ({ tid := d.tid, records := records, newTypes := d.types
     marks := ⟨maxOid + 1, maxCid + 1, d.tid + 1, root⟩, deletes := deletes, blobs := [] },
    ⟨maxOid, maxCid, root⟩)

/-- Whether a medium takes a batch: the shape ids of a file are told apart. -/
def Medium.takes (m : Medium) (b : Backend) (batch : CommitBatch) : Bool :=
  match m with
  | .memory => true
  | .sqlite => ((b.types ++ batch.newTypes).map Prod.fst).Nodup

/-- Apply a batch to the storage of a follower, whole or not at all. -/
def storeBatch (m : Medium) (refused : Bool) (batch : CommitBatch) :
    EStateM DeltaErr Backend Unit := do
  let b ← get
  if refused || !m.takes b batch then throw .backend
  else set (b.apply batch)

/-- The state of a replay from the first delta. -/
structure Bootstrap where
  backend : Backend
  applier : Applier := {}
  marks : HighWater := {}

/-- Replay one frame: the consumer checks the delta before storage is touched. -/
def bootstrapOne (m : Medium) (f : Frame) : EStateM DeltaErr Bootstrap Unit := do
  match f with
  | .malformed => throw .malformed
  | .delta d refused =>
    let advanced ← zoom Bootstrap.applier (fun a s => { s with applier := a }) (Applier.apply d)
    -- A delta the consumer has seen leaves the storage alone too.
    if advanced then
      let s ← get
      let next := deltaToBatch d s.marks
      set { s with marks := next.2 }
      -- The consumer is ahead of the storage where this raises.
      zoom Bootstrap.backend (fun b s => { s with backend := b }) (storeBatch m refused next.1)
    else pure ()

/-- Replay from the first delta. -/
def bootstrapBackend (m : Medium) (frames : List Frame) : EStateM DeltaErr Backend Unit :=
  zoom (fun b => { backend := b }) (fun s _ => s.backend) (frames.forM (bootstrapOne m))

/-- Open a follower on a storage. -/
def openFollower (m : Medium) (frames : List Frame) : EStateM DeltaErr Backend Store := do
  bootstrapBackend m frames
  let b ← get
  pure (Store.boot none none b)

/-- The state of a replay that goes on from a storage. -/
structure CatchUp where
  backend : Backend
  watermark : Nat
  marks : HighWater

/-- Where a storage stands. -/
def CatchUp.start (b : Backend) : CatchUp where
  backend := b
  watermark := b.marks.nextTid - 1
  marks := ⟨b.marks.nextOid - 1, b.marks.nextCid - 1, b.marks.rootOid⟩

/-- Replay one frame: only the header and the number are checked. -/
def catchUpOne (m : Medium) (f : Frame) : EStateM DeltaErr CatchUp Unit := do
  match f with
  | .malformed => throw .malformed
  | .delta d refused =>
    ofExcept (checkDeltaHeader d)
    let s ← get
    -- Frames at or below the watermark are skipped, as a consumer skips them.
    if d.tid ≤ s.watermark then pure ()
    else if d.tid ≠ s.watermark + 1 then throw (.gap s.watermark d.tid)
    else
      let next := deltaToBatch d s.marks
      set { s with marks := next.2 }
      zoom CatchUp.backend (fun b s => { s with backend := b }) (storeBatch m refused next.1)
      modify fun s => { s with watermark := d.tid }

/-- Replay from where the storage stands; the watermark reached. -/
def applyCatchup (m : Medium) (frames : List Frame) : EStateM DeltaErr Backend Nat :=
  zoom CatchUp.start (fun s _ => s.backend) do
    frames.forM (catchUpOne m)
    let s ← get
    pure s.watermark

/-- The exceptions of a sync. -/
inductive SyncErr
  /-- There are buffered writes. -/
  | buffered
  | replay (e : DeltaErr)
  deriving DecidableEq

namespace Store

/-- Nothing is buffered. -/
def unbuffered (s : Store) : Bool :=
  s.new.entries.isEmpty && s.dirty.entries.isEmpty && s.deleted.entries.isEmpty

/-- Catch up with what the coordinator answered; the watermark. What the store
    keeps in memory is derived again once, behind the last frame. -/
def resync (m : Medium) (frames : List Frame) : EStateM SyncErr Store Nat := do
  let s ← get
  -- Buffered writes are committed or discarded first.
  if !s.unbuffered then throw .buffered
  else
    -- The frames before one that fails stay stored.
    let applied ← EStateM.adaptExcept .replay
      (zoom Store.backend (fun b s => { s with backend := b }) (applyCatchup m frames))
    if s.lastTid < applied then modify refresh else pure ()
    let t ← get
    pure t.lastTid

/-- What a follower keeps buffered once the coordinator took its contribution. A
    follower that wants to delete something contributes nothing. -/
def contributed (s : Store) : Store :=
  if s.deleted.entries.isEmpty then { s with new := Dict.empty, dirty := Dict.empty } else s

end Store

/-- The exceptions of a contribution. -/
inductive ContributeErr
  /-- There are buffered deletions, which a follower cannot send. -/
  | deletes
  /-- The coordinator did not take it. -/
  | rejected
  | sync (e : SyncErr)
  deriving DecidableEq

namespace Store

/-- Send what is buffered to the coordinator, and sync with what it answers behind
    that. The coordinator rejects, or names the transaction it made of it, if any. -/
def contribute (m : Medium) (answer : Option (Option Nat)) (frames : List Frame) :
    EStateM ContributeErr Store (Option Nat) := do
  let s ← get
  if !s.deleted.entries.isEmpty then throw .deletes
  else if s.new.entries.isEmpty && s.dirty.entries.isEmpty then pure none
  else
    match answer with
    | none => throw .rejected
    | some applied =>
      -- The buffers are cleared before the pull.
      modify contributed
      let _ ← EStateM.adaptExcept .sync (resync m frames)
      pure applied

end Store

/-- A follower that opens and then syncs some times. -/
structure Session where
  bootstrap : List Frame
  syncs : List (List Frame)

namespace Session

/-- The storage a session leaves, with or without exceptions on the way. -/
def leaves (m : Medium) (se : Session) (b : Backend) : Backend :=
  match openFollower m se.bootstrap b with
  | .ok s _ => (se.syncs.foldl (fun s frames => finalState (s.resync m frames)) s).backend
  | .error _ b' => b'

/-- The follower behind a session that raises nowhere. -/
def follows (m : Medium) (se : Session) (b : Backend) : Option Store :=
  match openFollower m se.bootstrap b with
  | .ok s _ =>
    se.syncs.foldlM (fun s frames =>
      match Store.resync m frames s with
      | .ok _ t => some t
      | .error _ _ => none) s
  | .error _ _ => none

end Session

end DataCrystal
