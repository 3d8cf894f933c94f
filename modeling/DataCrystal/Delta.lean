import DataCrystal.Runs

/-!
# Commit Deltas

A store announces every stored commit to the consumers attached to it, as one
delta: the written records and the deleted ones, each with the payload it
replaces, the new shapes and the root. A consumer that has applied every delta
so far holds what the store holds.

The delta is assembled in the first phase, while the priors can still be read,
and delivered at the end of the third. A commit of a watched store therefore has
one more reason to be refused than one of an unwatched store: an entity that is
not new must have a record to take the prior from.

`Applier` is the consumer that replays everything and checks everything. It
refuses a delta that skips one, one that names a shape it has not seen, and one
whose priors are not what it holds.

## Main definitions

* `Delta`: What a commit announces.
* `Numbered`: Deltas without a gap.
* `Store.commitWatched`: A commit of a store with consumers.
* `Applier.apply`: The replaying consumer.
* `Watched`: A world with a consumer attached.
* `Watched.run`: The watched world after some events.
-/

namespace DataCrystal

/-- The values of a record, as its bytes carry them. -/
abbrev Payload := List (Val Token)

/-- What is done to a record. A decoded delta can hold any text here. -/
inductive DeltaKind
  | upsert
  | delete
  | other
  deriving DecidableEq

/-- What a delta says about one record. -/
structure DeltaOp where
  kind : DeltaKind
  oid : Nat
  cid : Nat
  payload : Option Payload
  /-- The payload before the commit, if there was one. -/
  prior : Option Payload
  deriving DecidableEq

def formatMarker : String := "datacrystal-delta"

def contractVersion : ℤ := 2

/-- What a commit announces. -/
structure Delta where
  marker : String := formatMarker
  version : ℤ := contractVersion
  tid : Nat
  /-- The uid that committed. -/
  actor : ℤ
  ops : List DeltaOp
  types : List TypeRow
  rootOid : Option Nat
  deriving DecidableEq

/-- Deltas numbered without a gap after a transaction. -/
def Numbered (start : Nat) (ds : List Delta) : Prop :=
  ds.map Delta.tid = List.range' (start + 1) ds.length

namespace Numbered

variable {start : Nat} {ds ds' : List Delta}

theorem left (h : Numbered start (ds ++ ds')) : Numbered start ds := by
  have htids := congrArg (List.take ds.length) h
  rw [List.map_append, List.take_left' (List.length_map Delta.tid), List.length_append,
    ← List.range'_append_1, List.take_left' List.length_range'] at htids
  exact htids

theorem right (h : Numbered start (ds ++ ds')) : Numbered (start + ds.length) ds' := by
  have htids := congrArg (List.drop ds.length) h
  rw [List.map_append, List.drop_left' (List.length_map Delta.tid), List.length_append,
    ← List.range'_append_1, List.drop_left' List.length_range'] at htids
  unfold Numbered
  rw [htids]
  congr 1
  omega

theorem mem_tid (h : Numbered start ds) {d : Delta} (hd : d ∈ ds) :
    start < d.tid ∧ d.tid ≤ start + ds.length := by
  have hmem : d.tid ∈ ds.map Delta.tid := List.mem_map_of_mem hd
  rw [h, List.mem_range'_1] at hmem
  omega

theorem snoc (h : Numbered start ds) {d : Delta} (htid : d.tid = start + ds.length + 1) :
    Numbered start (ds ++ [d]) := by
  unfold Numbered
  rw [List.map_append, h, List.length_append, List.length_singleton, List.range'_concat,
    List.map_singleton, htid]
  congr 2
  omega

/-- The deltas up to a transaction are those in front of it. -/
theorem filter (h : Numbered start (ds ++ ds')) :
    (ds ++ ds').filter (fun d => d.tid ≤ start + ds.length) = ds := by
  have hleft : ds.filter (fun d => d.tid ≤ start + ds.length) = ds := by
    rw [List.filter_eq_self]
    intro d hd
    have htid := h.left.mem_tid hd
    exact decide_eq_true htid.2
  have hright : ds'.filter (fun d => d.tid ≤ start + ds.length) = [] := by
    rw [List.filter_eq_nil_iff]
    intro d hd
    have htid := h.right.mem_tid hd
    rw [decide_eq_true_eq]
    omega
  rw [List.filter_append, hleft, hright, List.append_nil]

end Numbered

/-- The exceptions of a consumer. -/
inductive DeltaErr
  | foreignMarker
  | newerVersion (version : ℤ)
  | olderVersion (version : ℤ)
  /-- The deltas in between are missing. -/
  | gap (watermark tid : Nat)
  | unknownCid (cid : Nat)
  | priorMismatch (oid : Nat)
  | noPayload (oid : Nat)
  | absentDelete (oid : Nat)
  | unknownOp (oid : Nat)
  /-- A frame that does not decode to a delta. -/
  | malformed
  /-- The storage of the consumer refused the batch. -/
  | backend
  deriving DecidableEq

/-- Refuse a delta with a foreign marker or another version. -/
def checkDeltaHeader (d : Delta) : Except DeltaErr Unit :=
  if d.marker ≠ formatMarker then .error .foreignMarker
  else if d.version = contractVersion then .ok ()
  else if contractVersion < d.version then .error (.newerVersion d.version)
  else .error (.olderVersion d.version)

/-- Assemble the delta of a batch: the written records, then the deletions. -/
def buildDelta (tid : Nat) (records : List StoredRecord) (newTypes : List TypeRow)
    (root : Option Nat) (priors : Dict Nat Payload) (deletes : List (Nat × Nat × Payload))
    (actor : ℤ) : Delta where
  tid := tid
  actor := actor
  -- A record without a prior is an insert.
  ops := (records.map fun rec =>
      { kind := .upsert, oid := rec.oid, cid := rec.cid, payload := some rec.payload
        prior := priors.get? rec.oid }) ++
    deletes.map fun d =>
      { kind := .delete, oid := d.1, cid := d.2.1, payload := none, prior := some d.2.2 }
  types := newTypes
  rootOid := root

namespace Store

/-- The payload a pending entity replaces. -/
def readPrior (s : Store) (e : Nat × Nat) : Except Err (Nat × Payload) :=
  match s.backend.objects.get? e.1 with
  | some rec => .ok (e.1, rec.payload)
  | none => .error (.missingPrior e.1)

/-- The record a deletion ends. -/
def readTombstone (s : Store) (oid : Nat) : Except Err (Nat × Nat × Payload) :=
  match s.backend.objects.get? oid with
  | some rec => .ok (oid, rec.cid, rec.payload)
  | none => .error (.missingPrior oid)

/-- The payloads a batch replaces: of every pending entity that is not new, and
    of every deletion. -/
def readDeltaPriors (s : Store) : Except Err (Dict Nat Payload × List (Nat × Nat × Payload)) := do
  let priors ← (s.pending.entries.filter fun e => !s.new.contains e.1).mapM s.readPrior
  let tombstones ← s.deleted.keys.mapM s.readTombstone
  .ok (Dict.ofList priors, tombstones)

/-- The delta of a captured batch. -/
def deltaOf (p : Principal) (s : Store) (out : EncodedBatch)
    (priors : Dict Nat Payload × List (Nat × Nat × Payload)) : Delta :=
  let batch := s.buildBatch out
  buildDelta batch.tid batch.records batch.newTypes s.rootOid priors.1 priors.2 p.uid

/-- The first phase of a watched store: a capture and its delta. -/
def p1Watched (types : Types) (p : Principal) : M (Option (Capture × Delta)) := do
  discoverNewGraphs types p
  let s ← get
  if s.pending.entries.isEmpty && s.deleted.entries.isEmpty then pure none
  else
    validateBeforeTid types p
    let out ← encodePending types s.pending.entries
    let t ← get
    -- The payloads the batch replaces are read before it is written.
    let priors ← ofExcept t.readDeltaPriors
    modify (settle types)
    pure (some (t.captureOf types (s.refEntries types) out, t.deltaOf p out priors))

/-- Commit a watched store: the transaction id and the delta to deliver. -/
def commitWatched (types : Types) (p : Principal) (fault : Bool) : M (Option (Nat × Delta)) := do
  let captured ← p1Watched types p
  match captured with
  | none => pure none
  | some (cap, delta) =>
    if fault then
      modify (p2Rollback cap)
      throw .backend
    else
      modify (applyBatch cap.batch)
      let tid ← p3Finalize cap
      -- Delivered only behind a batch that is durable.
      pure (some (tid, delta))

end Store

/-- The consumer that replays the stream. -/
structure Applier where
  objects : Dict Nat Payload := Dict.empty
  types : Dict Nat (String × List String) := Dict.empty
  rootOid : Option Nat := none
  watermark : Nat := 0

namespace Applier

/-- Apply what a delta says about one record. -/
def applyOp (op : DeltaOp) : EStateM DeltaErr Applier Unit := do
  let a ← get
  let current := a.objects.get? op.oid
  -- The class of the op is known, and what it replaces is what is here.
  if !a.types.contains op.cid then throw (.unknownCid op.cid)
  else if op.prior ≠ current then throw (.priorMismatch op.oid)
  else
    match op.kind with
    | .upsert =>
      match op.payload with
      | some payload => set { a with objects := a.objects.set op.oid payload }
      | none => throw (.noPayload op.oid)
    | .delete =>
      match current with
      | some _ => set { a with objects := a.objects.erase op.oid }
      | none => throw (.absentDelete op.oid)
    | .other => throw (.unknownOp op.oid)

/-- Take the new shapes in. -/
def learn (rows : List TypeRow) (a : Applier) : Applier :=
  { a with types := rows.foldl (fun types row => types.set row.1 row.2) a.types }

/-- Apply one delta; whether it was new. -/
def apply (d : Delta) : EStateM DeltaErr Applier Bool := do
  ofExcept (checkDeltaHeader d)
  let a ← get
  -- A frame a second time is no error.
  if d.tid ≤ a.watermark then pure false
  else if d.tid ≠ a.watermark + 1 then throw (.gap a.watermark d.tid)
  else
    -- The types first: the ops of this delta may be of them.
    modify (learn d.types)
    d.ops.forM applyOp
    modify fun a => { a with rootOid := d.rootOid, watermark := d.tid }
    pure true

end Applier

/-- A world whose store has a consumer attached. -/
structure Watched where
  world : World
  consumer : Applier := {}
  attached : Bool := true
  /-- What was delivered so far. -/
  stream : List Delta := []

namespace Watched

/-- Hand a delta to the consumer. One that raises, or that does not advance, is
    detached. -/
def deliver (d : Delta) (w : Watched) : Watched :=
  match Applier.apply d w.consumer with
  | .ok _ a =>
    { w with consumer := a, attached := a.watermark = d.tid, stream := w.stream ++ [d] }
  | .error _ a => { w with consumer := a, attached := false, stream := w.stream ++ [d] }

/-- The world with its store as a program left it. -/
def withStore (s : Store) (w : Watched) : Watched := { w with world := { w.world with store := s } }

/-- A commit, watched or not. -/
def commit (p : Principal) (fault : Bool) (w : Watched) : Watched :=
  if w.attached then
    match Store.commitWatched w.world.types p fault w.world.store with
    | .ok (some (_, delta)) s => (w.withStore s).deliver delta
    | r => w.withStore (finalState r)
  else { w with world := w.world.step (.act p (.commit fault)) }

/-- A new session attaches the consumer again, which needs equal watermarks. -/
def attach (w : Watched) : Watched :=
  { w with attached := w.consumer.watermark = w.world.store.lastTid }

def step (w : Watched) : Event → Watched
  | .act p (.commit fault) => w.commit p fault
  | .act p op => { w with world := w.world.step (.act p op) }
  | .closeAndOpen types => { w with world := w.world.step (.closeAndOpen types) }.attach
  | .crashAndOpen types => { w with world := w.world.step (.crashAndOpen types) }.attach

/-- The watched world after some events. -/
def run (w : Watched) (events : List Event) : Watched := events.foldl step w

end Watched

end DataCrystal
