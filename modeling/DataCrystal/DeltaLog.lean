import DataCrystal.Lib.Disk
import DataCrystal.Lib.Raise
import DataCrystal.Lib.Run
import DataCrystal.Delta

/-!
# The Delta Log

A consumer that keeps every delta it is handed. Deltas are collected in memory
and flushed as frames to the last of a list of segment files. A manifest names
the segments and how many bytes of each are valid. It is replaced after the
bytes are on disk, and from then on the deltas are durable.

A log that is opened takes its state from the manifest. What it finds on disk
beyond it was left by a flush that did not finish: bytes past the valid ones are
cut off, and files the manifest does not name are removed.

A flush is a sequence of file steps. It can be interrupted before each of them,
by an error of the file system or by a crash, and in the middle of the write.
The memory of the log changes between the steps too, so what an error leaves
behind depends on the step.

## Main definitions

* `DeltaLog`, `LogManifest`, `LogWorld`: The log, its manifest, and its files.
* `DeltaLog.flush`, `DeltaLog.apply`: Writing the deltas.
* `DeltaLog.replay`: Reading them.
* `openLog`, `bootstrapLog`: Opening a log, and starting one in mid-stream.
* `LogRun.step`: Operations, reopenings and crashes.
-/

namespace DataCrystal

def logFormat : String := "datacrystal-delta-log"

def logVersion : Nat := 1

/-- How deltas are put into bytes. -/
structure DeltaCodec where
  encode : Delta → Bytes
  decode : Bytes → Except DeltaErr Delta

/-- A delta is read back from its bytes, and their number fits a prefix. -/
def DeltaCodec.Carries (c : DeltaCodec) (d : Delta) : Prop :=
  c.decode (c.encode d) = .ok d ∧ (c.encode d).length < 256 ^ prefixSize

/-- A segment file. Its name is numbered, and bytes past `nbytes` are debris. -/
structure Segment where
  number : Nat
  firstTid : Nat := 0
  lastTid : Nat := 0
  nbytes : Nat := 0
  deriving DecidableEq

/-- What the manifest file holds. -/
structure LogManifest where
  format : String := logFormat
  version : Nat := logVersion
  contract : ℤ := contractVersion
  watermark : Nat := 0
  genesisTid : Nat := 0
  genesisTypes : List TypeRow := []
  nextSegment : Nat := 1
  segments : List Segment := []
  deriving DecidableEq

/-- How a log is opened: the constructor refuses smaller numbers. -/
structure LogParams where
  flushEvery : Nat := 1
  maxSegmentBytes : Nat := 8 * 1024 * 1024
  flushes : 1 ≤ flushEvery := by decide
  holds : prefixSize + 1 ≤ maxSegmentBytes := by decide

/-- The log in memory. -/
structure DeltaLog where
  params : LogParams := {}
  segments : List Segment := []
  nextSegment : Nat := 1
  /-- The highest transaction in the manifest. -/
  watermark : Nat := 0
  /-- The highest transaction taken in. -/
  applied : Nat := 0
  genesisTid : Nat := 0
  genesisTypes : List TypeRow := []
  /-- The deltas since the last flush. -/
  buffer : List (Nat × Bytes) := []
  appliesSinceFlush : Nat := 0
  bytesFlushed : Nat := 0

/-- The files of a log. -/
structure LogDisk where
  data : Folder Nat := fun _ => none
  manifest : Slot LogManifest := {}

/-- A log and its files. -/
structure LogWorld where
  log : DeltaLog
  disk : LogDisk

/-- The exceptions of a log. -/
inductive LogErr
  | delta (e : DeltaErr)
  | foreignFormat
  | newerFormat (version : Nat)
  | otherContract (version : ℤ)
  /-- A segment file that is not there. -/
  | missingFile (number : Nat)
  /-- A file step failed. -/
  | os
  deriving DecidableEq

/-- The file steps of a flush. A write that fails has landed some bytes. -/
inductive FileStep
  | openSegment
  | write (landed : Nat)
  | syncSegment
  | syncEntries
  | writeTemp
  | syncTemp
  | replace
  | syncFolder
  deriving DecidableEq

namespace DeltaLog

variable (c : DeltaCodec) (fault : Option FileStep)

/-- The segment that is written to. -/
def current (l : DeltaLog) : Segment := l.segments.getLast?.getD { number := 0 }

/-- Make sure the last segment has room, or roll to a fresh one; whether it rolled. -/
def ensureCurrentSegment (l : DeltaLog) : Bool × DeltaLog :=
  -- A segment takes one flush more as long as it is under the size.
  if l.segments ≠ [] ∧ l.current.nbytes < l.params.maxSegmentBytes then (false, l)
  else
    (true, { l with
      nextSegment := l.nextSegment + 1
      segments := l.segments ++ [{ number := l.nextSegment }] })

/-- The bytes a flush appends. -/
def blob (l : DeltaLog) : Bytes := frames (l.buffer.map Prod.snd)

/-- A segment with the buffered deltas appended. -/
def extended (l : DeltaLog) (seg : Segment) : Segment where
  number := seg.number
  firstTid := if seg.firstTid = 0 then (l.buffer.head?.map Prod.fst).getD 0 else seg.firstTid
  lastTid := (l.buffer.getLast?.map Prod.fst).getD 0
  nbytes := seg.nbytes + l.blob.length

/-- The counters after the bytes were appended. -/
def counted (l : DeltaLog) : DeltaLog :=
  { l with
    segments := l.segments.dropLast ++ [l.extended l.current]
    watermark := l.applied }

/-- The log after a flush. -/
def flushed (l : DeltaLog) : DeltaLog :=
  { l with bytesFlushed := l.blob.length, buffer := [], appliesSinceFlush := 0 }

/-- The manifest of a log. -/
def manifest (l : DeltaLog) : LogManifest where
  watermark := l.watermark
  genesisTid := l.genesisTid
  genesisTypes := l.genesisTypes
  nextSegment := l.nextSegment
  segments := l.segments

/-- Come to a file step, which may fail. -/
def reach (step : FileStep) : EStateM LogErr LogWorld Unit := raiseIf (fault = some step) .os

/-- Change the files. -/
def onData (f : Folder Nat → Folder Nat) : EStateM LogErr LogWorld Unit :=
  modify fun w => { w with disk.data := f w.disk.data }

/-- Replace the manifest. Nothing reads the temporary file it is written to. -/
def writeManifest : EStateM LogErr LogWorld Unit := do
  reach fault .writeTemp
  reach fault .syncTemp
  reach fault .replace
  -- The rename: from here on a reader sees the new one.
  modify fun w => { w with disk.manifest := w.disk.manifest.replace w.log.manifest }
  reach fault .syncFolder
  -- And from here on a crash leaves it in place.
  modify fun w => { w with disk.manifest := w.disk.manifest.sync }

/-- Append bytes to a segment file and sync it. -/
def appendSegment (number : Nat) (blob : Bytes) : EStateM LogErr LogWorld Unit := do
  reach fault .openSegment
  onData (Folder.openAppend number)
  match fault with
  -- A write that is cut short leaves its first bytes in the file.
  | some (.write landed) =>
    onData (Folder.append number (blob.take landed))
    throw .os
  | _ =>
    onData (Folder.append number blob)
    reach fault .syncSegment
    onData (Folder.sync number)

/-- The entry of a file that was just created has to land too. -/
def syncCreated (created : Bool) : EStateM LogErr LogWorld Unit :=
  if created then do
    reach fault .syncEntries
    onData Folder.syncEntries
  else pure ()

/-- Write the buffered deltas to the current segment and move the durable
    watermark. -/
def flushTo (created : Bool) : EStateM LogErr LogWorld Unit := do
  let w ← get
  -- The bytes are on disk before a manifest counts them.
  appendSegment fault w.log.current.number w.log.blob
  syncCreated fault created
  modify fun w => { w with log := w.log.counted }
  writeManifest fault
  -- The buffer goes last, so a flush that fails can be made again.
  modify fun w => { w with log := w.log.flushed }

/-- Flush the buffer, if it holds anything. -/
def flush : EStateM LogErr LogWorld Unit := do
  modify fun w => { w with log.bytesFlushed := 0 }
  let w ← get
  if w.log.buffer.isEmpty then pure ()
  else
    let ensured := w.log.ensureCurrentSegment
    -- A segment that was rolled stays, if the write fails it has no bytes.
    set { w with log := ensured.2 }
    flushTo fault ensured.1

/-- A delta that is taken in: the next one, of known operations. -/
def accepts (l : DeltaLog) (d : Delta) : Bool :=
  checkDeltaHeader d = .ok () ∧ d.tid = l.applied + 1 ∧ ∀ op ∈ d.ops, op.kind ≠ .other

/-- The log with one more delta. -/
def buffered (d : Delta) (l : DeltaLog) : DeltaLog :=
  { l with
    buffer := l.buffer ++ [(d.tid, c.encode d)]
    applied := d.tid
    appliesSinceFlush := l.appliesSinceFlush + 1 }

/-- Take one delta in; whether it was new. -/
def apply (d : Delta) : EStateM LogErr LogWorld Bool := do
  ofExcept ((checkDeltaHeader d).mapError .delta)
  let w ← get
  -- Buffered or durable already.
  if d.tid ≤ w.log.applied then pure false
  else if d.tid ≠ w.log.applied + 1 then throw (.delta (.gap w.log.applied d.tid))
  else
    -- The only check of an op: what it replaces is not looked at.
    match d.ops.find? fun op => op.kind = .other with
    | some op => throw (.delta (.unknownOp op.oid))
    | none =>
      let log := w.log.buffered c d
      set { w with log := log }
      -- The log is the new one before the flush that may fail.
      if log.params.flushEvery ≤ log.appliesSinceFlush then flush fault
      pure true

/-- Decode bytes. -/
def decoded (raw : Bytes) : Except LogErr Delta := (c.decode raw).mapError .delta

/-- The deltas in the valid bytes of a segment. -/
def iterSegment (data : Folder Nat) (seg : Segment) : Except LogErr (List Delta) :=
  match data seg.number with
  | none => .error (.missingFile seg.number)
  | some f => (readFrames seg.nbytes seg.nbytes f.bytes).mapM (decoded c)

/-- Every delta after a transaction: of the segments, then of the buffer. -/
def replay (after : Nat) (w : LogWorld) : Except LogErr (List Delta) := do
  let stored ← (w.log.segments.filter fun seg => after < seg.lastTid).mapM
    (iterSegment c w.disk.data)
  let unflushed ← (w.log.buffer.filter fun e => after < e.1).mapM fun e => decoded c e.2
  .ok ((stored.flatten.filter fun d => after < d.tid) ++ unflushed)

end DeltaLog

/-- A log with the state a manifest gives. -/
def loadManifest (m : Option LogManifest) (params : LogParams) : Except LogErr DeltaLog :=
  match m with
  | none => .ok { params := params }
  | some m =>
    if m.format ≠ logFormat then .error .foreignFormat
    else if logVersion < m.version then .error (.newerFormat m.version)
    -- An older version is read, a newer one is refused.
    else if m.contract ≠ contractVersion then .error (.otherContract m.contract)
    else
      .ok
        { params := params, segments := m.segments, nextSegment := m.nextSegment
          watermark := m.watermark, applied := m.watermark, genesisTid := m.genesisTid
          genesisTypes := m.genesisTypes }

/-- Cut a segment file to its valid bytes. -/
def reconcileSegment (data : Folder Nat) (seg : Segment) : Folder Nat :=
  if (data seg.number).any fun f => f.bytes.length ≠ seg.nbytes then
    data.truncate seg.number seg.nbytes
  else data

/-- Cut every segment file, and remove the files that are not named. -/
def reconcileSegments (segments : List Segment) (data : Folder Nat) : Folder Nat :=
  (segments.foldl reconcileSegment data).keepOnly (segments.map Segment.number)

/-- Open a log. -/
def openLog (params : LogParams) (disk : LogDisk) : Except LogErr LogWorld := do
  let log ← loadManifest disk.manifest.current params
  .ok ⟨log, { disk with data := reconcileSegments log.segments disk.data }⟩

/-- A log that joins a store at a transaction, with the shapes known by then. -/
def bootstrapLog (params : LogParams) (tid : Nat) (types : List TypeRow) : LogWorld :=
  let log : DeltaLog :=
    { params := params, watermark := tid, applied := tid, genesisTid := tid, genesisTypes := types }
  finalState (DeltaLog.writeManifest none ⟨log, {}⟩)

/-- A log in an empty directory. -/
def freshLog (params : LogParams) : LogWorld := ⟨{ params := params }, {}⟩

/-- A new log: in an empty directory, or joining a store in mid-stream. -/
def startLog (params : LogParams) : Option (Nat × List TypeRow) → LogWorld
  | none => freshLog params
  | some (tid, types) => bootstrapLog params tid types

/-- What is done to a log; closing it is a flush. -/
inductive LogOp
  | apply (d : Delta)
  | flush
  deriving DecidableEq

/-- Run an operation that may fail at a file step. -/
def LogOp.run (c : DeltaCodec) (fault : Option FileStep) : LogOp → EStateM LogErr LogWorld Unit
  | .apply d => do
    let _ ← DeltaLog.apply c fault d
    pure ()
  | .flush => DeltaLog.flush fault

/-- The delta an operation adds to a log. -/
def LogOp.taken (l : DeltaLog) : LogOp → List Delta
  | .apply d => if l.accepts d then [d] else []
  | .flush => []

/-- What happens to a log. A crash may come in the middle of an operation, before
    one of its file steps. -/
inductive LogEvent
  | op (o : LogOp) (fault : Option FileStep)
  | reopen (params : LogParams)
  | crash (during : Option (LogOp × Option FileStep)) (wreck : Nat → Option Bytes) (kept : Bool)
      (params : LogParams)

/-- The delta an operation is given. -/
def LogOp.given : LogOp → List Delta
  | .apply d => [d]
  | .flush => []

/-- The delta an event hands to a log. -/
def LogEvent.given : LogEvent → List Delta
  | .op o _ => o.given
  | .reopen _ => []
  | .crash during _ _ _ => (during.map fun d => d.1.given).getD []

/-- What a crash leaves of the files. -/
def LogDisk.crash (wreck : Nat → Option Bytes) (kept : Bool) (disk : LogDisk) : LogDisk :=
  ⟨disk.data.crash wreck, disk.manifest.crash kept⟩

/-- The manifest a log would be opened with. -/
def LogDisk.committed (disk : LogDisk) : LogManifest := disk.manifest.current.getD {}

/-- A log, and the deltas it was given and has not lost with a process. -/
structure LogRun where
  world : LogWorld
  taken : List Delta := []
  /-- Whether it could not be opened again. -/
  refused : Bool := false

namespace LogRun

variable (c : DeltaCodec)

/-- An operation. -/
def act (o : LogOp) (fault : Option FileStep) (r : LogRun) : LogRun :=
  { r with world := finalState (o.run c fault r.world), taken := r.taken ++ o.taken r.world.log }

/-- A new process opens what is on disk: the deltas after the manifest are gone. -/
def opened (params : LogParams) (disk : LogDisk) (r : LogRun) : LogRun :=
  match openLog params disk with
  | .ok w => { r with
      world := w, taken := r.taken.filter fun d => d.tid ≤ disk.committed.watermark }
  | .error _ => { r with refused := true }

/-- The log at a crash, with the operation it comes in the middle of. -/
def cut (during : Option (LogOp × Option FileStep)) (r : LogRun) : LogRun :=
  match during with
  | none => r
  | some (o, fault) => r.act c o fault

def step (r : LogRun) : LogEvent → LogRun
  | .op o fault => r.act c o fault
  | .reopen params => r.opened params r.world.disk
  | .crash during wreck kept params =>
    -- The operation that was under way ends at the step it had reached.
    let cut := r.cut c during
    cut.opened params (cut.world.disk.crash wreck kept)

/-- The log after some events. -/
def run (r : LogRun) (events : List LogEvent) : LogRun := events.foldl (step c) r

end LogRun

end DataCrystal
