import DataCrystal.Lib.Disk
import DataCrystal.Lib.Newest
import DataCrystal.Lib.Raise
import DataCrystal.Lib.Run
import DataCrystal.Delta

/-!
# The Columnar Mirror

A consumer that keeps the live rows of every class as a table in columns. The
rows a delta brings are pending until a flush writes them to a new segment file
of their class. The table is what the segments and the pending rows stand for,
newest wins. When a class has too many segments they are folded into one. The
manifest names the segments of every class, and a file it does not name is swept
when the mirror is opened.

A column has a tag, which says how its values are stored. Values of another kind
widen the tag, and the cells of a segment written under an earlier tag are read
and stored again under the present one. How values are tagged and stored is a
parameter, `Columnar`.

A flush is a sequence of file steps and can be cut off before each of them. A new
segment is synced before the manifest names it. A compacted one is not.

## Main definitions

* `Columnar`: How values are put into columns.
* `Mirror`, `MirrorDisk`, `MirrorWorld`: The mirror and its files.
* `Mirror.apply`, `Mirror.flush`, `Mirror.compact`: The operations.
* `Mirror.table`: The table of a class.
* `openMirror`: Opening a mirror.
* `Folded`: The rows that deltas stand for.
-/

namespace DataCrystal

def mirrorFormat : String := "datacrystal-arrow-mirror"

def mirrorVersion : Nat := 1

def oidCol : String := "__oid__"

def deletedCol : String := "__deleted__"

/-- A mirrored row: the values of its fields. -/
abbrev Row := Dict String (Val Token)

/-- How values are put into columns. A missing value is the missing cell under
    every tag. -/
structure Columnar (τ κ : Type) where
  /-- The tag of a column without values. -/
  null : τ
  tagOf : Val Token → τ
  unify : τ → τ → τ
  nullCell : κ
  /-- What is stored of a value under a tag. -/
  storable : τ → Val Token → κ
  /-- The value of what is stored. -/
  semantic : τ → κ → Val Token
  storable_none : ∀ t, storable t .none = nullCell
  semantic_null : ∀ t, semantic t nullCell = .none

/-- A row of a segment: the OID, whether it is a tombstone, and its cells by column. -/
abbrev SegmentRow (κ : Type) := Nat × Bool × List (String × κ)

/-- What a segment file holds, with the tags it was written under. -/
structure SegmentTable (τ κ : Type) where
  tags : Dict String τ
  rows : List (SegmentRow κ)

/-- The bookkeeping of one class. Segments are numbered. -/
structure TableState (τ : Type) where
  columns : Dict String τ := Dict.empty
  segments : List Nat := []
  nextSegment : Nat := 1
  deriving DecidableEq

/-- The type lineage a mirror has seen. -/
abbrev Lineages := Dict Nat (String × List String)

/-- What the manifest file holds. -/
structure MirrorManifest (τ : Type) where
  format : String := mirrorFormat
  version : Nat := mirrorVersion
  contract : ℤ := contractVersion
  watermark : Nat := 0
  only : Option (List String) := none
  types : Lineages := Dict.empty
  tables : Dict String (TableState τ) := Dict.empty

/-- How a mirror is opened: the constructor refuses smaller numbers. -/
structure MirrorParams where
  flushEvery : Nat := 1
  maxSegments : Nat := 16
  flushes : 1 ≤ flushEvery := by decide
  segments : 2 ≤ maxSegments := by decide

/-- The mirror in memory. A pending row that is none is a tombstone. -/
structure Mirror (τ : Type) where
  params : MirrorParams := {}
  /-- The classes that are mirrored, if not all are. -/
  only : Option (List String) := none
  types : Lineages := Dict.empty
  tables : Dict String (TableState τ) := Dict.empty
  watermark : Nat := 0
  pending : Dict String (Dict Nat (Option Row)) := Dict.empty
  appliesSinceFlush : Nat := 0

/-- A segment file, by its class and number. -/
abbrev SegmentName := String × Nat

/-- The files of a mirror. -/
structure MirrorDisk (τ κ : Type) where
  data : Cabinet SegmentName (SegmentTable τ κ) := fun _ => none
  manifest : Slot (MirrorManifest τ) := {}
  /-- The segments compaction wrote. Nothing reads this. -/
  folded : List SegmentName := []

/-- A mirror, its files, and how many file steps are left before it is cut off. -/
structure MirrorWorld (τ κ : Type) where
  mirror : Mirror τ
  disk : MirrorDisk τ κ
  left : Option Nat := none

/-- The exceptions of a mirror. -/
inductive MirrorErr
  | delta (e : DeltaErr)
  | noPrior (oid : Nat)
  | reserved (name : String)
  /-- A segment file that cannot be read. -/
  | unreadable (typename : String) (number : Nat)
  | foreignFormat
  | newerFormat (version : Nat)
  | otherOnly
  /-- The process ends here. -/
  | stopped
  deriving DecidableEq

/-- The row of a payload: by name through its shape, with the fields of the live
    class, and its defaults for those the shape lacks. A label column that is lacking has the
    label of a fresh instance, not the legacy one that hydration fills in. -/
def mirrorRow (types : Types) (typename : String) (persisted : List String) (payload : Payload) :
    Row :=
  let byName := Dict.ofList (persisted.zip payload)
  match types.known typename with
  -- A class this process does not have keeps its columns as they were written.
  | none => byName
  -- A field the live class has dropped is in no row.
  | some ti => Dict.ofList (ti.fieldNames.filterMap fun name =>
      match byName.get? name with
      | some v => some (name, v)
      | none => (ti.default? name).map fun v => (name, v))

/-- The columns by name. -/
def sortedColumns {τ : Type} (columns : Dict String τ) : List (String × τ) :=
  columns.entries.insertionSort fun c c' => c.1 ≤ c'.1

namespace Columnar

variable {τ κ : Type} [DecidableEq τ] (L : Columnar τ κ)

/-- The cells of a row under some columns; a tombstone has none. -/
def cells (columns : Dict String τ) (row : Option Row) : List (String × κ) :=
  (sortedColumns columns).map fun c =>
    (c.1, L.storable c.2 ((row.bind fun r => r.get? c.1).getD .none))

/-- The segment of some rows. -/
def pendingTable (columns : Dict String τ) (rows : Dict Nat (Option Row)) : SegmentTable τ κ where
  tags := columns
  rows := rows.entries.map fun e => (e.1, e.2.isNone, L.cells columns e.2)

/-- A cell of a segment under the present columns. -/
def rereadCell (tags : Dict String τ) (cells : List (String × κ)) (c : String × τ) : κ :=
  match tags.get? c.1 with
  -- A column that came after the segment.
  | none => L.nullCell
  | some old =>
    let cell := (cells.lookup c.1).getD L.nullCell
    -- The cell was stored under another tag: read by it, written by the present one.
    if old = c.2 then cell else L.storable c.2 (L.semantic old cell)

/-- The rows of a segment under the present columns. -/
def readSegment (columns : Dict String τ) (t : SegmentTable τ κ) : List (SegmentRow κ) :=
  t.rows.map fun r =>
    (r.1, r.2.1, (sortedColumns columns).map fun c => (c.1, L.rereadCell t.tags r.2.2 c))

/-- Widen a column by a value. -/
def widenField (e : String × Val Token) : EStateM MirrorErr (Dict String τ) Unit := do
  raiseIf (e.1 = oidCol || e.1 = deletedCol) (.reserved e.1)
  modify fun columns => columns.set e.1 (L.unify (columns.getD e.1 L.null) (L.tagOf e.2))

/-- Widen the columns by a row; a tombstone widens none. -/
def widenRow : Option Row → EStateM MirrorErr (Dict String τ) Unit
  | none => pure ()
  | some row => row.entries.forM L.widenField

/-- Widen the columns by some rows. -/
def widenRows (rows : List (Option Row)) : EStateM MirrorErr (Dict String τ) Unit :=
  rows.forM L.widenRow

end Columnar

/-- The newest live rows of parts, by OID. -/
def foldLive {κ : Type} (parts : List (List (SegmentRow κ))) : List (Nat × List (String × κ)) :=
  sortByKey (((foldNewest Prod.fst parts).filter fun r => !r.2.1).map fun r => (r.1, r.2.2))

namespace Mirror

variable {τ κ : Type} [DecidableEq τ] (L : Columnar τ κ) (types : Types)

/-- The bookkeeping of a class. -/
def state (m : Mirror τ) (typename : String) : TableState τ := m.tables.getD typename {}

def setState (typename : String) (st : TableState τ) (m : Mirror τ) : Mirror τ :=
  { m with tables := m.tables.set typename st }

def pendingOf (m : Mirror τ) (typename : String) : Dict Nat (Option Row) :=
  m.pending.getD typename Dict.empty

/-- What is written of one row, if its class is mirrored. -/
def decodeOp (only : Option (List String)) (lineage : Lineages) (op : DeltaOp) :
    Except MirrorErr (Option (String × Nat × Option Row)) :=
  -- The kind and the class are refused even where the class is not mirrored.
  if op.kind = .other then .error (.delta (.unknownOp op.oid))
  else
    match lineage.get? op.cid with
    | none => .error (.delta (.unknownCid op.cid))
    | some shape =>
      -- Without a filter every class is mirrored.
      if only.all fun names => names.contains shape.1 then
        if op.kind = .delete then
          -- A delete says what it deletes.
          if op.prior = none then .error (.noPrior op.oid)
          else .ok (some (shape.1, op.oid, none))
        else
          match op.payload with
          | none => .error (.delta (.noPayload op.oid))
          | some payload => .ok (some (shape.1, op.oid,
              some (mirrorRow types shape.1 shape.2 payload)))
      else .ok none

/-- The rows of a delta, all of them decoded before any is taken in. -/
def decodeOps (only : Option (List String)) (lineage : Lineages) (ops : List DeltaOp) :
    Except MirrorErr (List (String × Nat × Option Row)) := do
  let batch ← ops.mapM (decodeOp types only lineage)
  .ok (batch.filterMap id)

/-- The lineage with the shapes of a delta. -/
def learn (lineage : Lineages) (rows : List TypeRow) : Lineages :=
  rows.foldl (fun lineage row => lineage.set row.1 row.2) lineage

/-- Make a row pending. -/
def addPending (pending : Dict String (Dict Nat (Option Row))) (e : String × Nat × Option Row) :
    Dict String (Dict Nat (Option Row)) :=
  pending.set e.1 ((pending.getD e.1 Dict.empty).set e.2.1 e.2.2)

/-- A file step. The process may end before it. -/
def fileStep (f : MirrorDisk τ κ → MirrorDisk τ κ) :
    EStateM MirrorErr (MirrorWorld τ κ) Unit := do
  let w ← get
  match w.left with
  | none => set { w with disk := f w.disk }
  -- The process ends before this step.
  | some 0 => throw .stopped
  | some (n + 1) => set { w with disk := f w.disk, left := some n }

/-- Work on the segment files. -/
def onData (f : Cabinet SegmentName (SegmentTable τ κ) → Cabinet SegmentName (SegmentTable τ κ)) :
    EStateM MirrorErr (MirrorWorld τ κ) Unit :=
  fileStep fun disk => { disk with data := f disk.data }

/-- Change the bookkeeping of a class. -/
def onState (typename : String) (f : TableState τ → TableState τ) :
    EStateM MirrorErr (MirrorWorld τ κ) Unit :=
  modify fun w => { w with mirror := w.mirror.setState typename (f (w.mirror.state typename)) }

/-- Write rows to a new segment. It is on disk before it is counted. -/
def writeSegment (typename : String) (rows : Dict Nat (Option Row)) :
    EStateM MirrorErr (MirrorWorld τ κ) Unit := do
  let w ← get
  let st := w.mirror.state typename
  onData (Cabinet.write (typename, st.nextSegment) (L.pendingTable st.columns rows))
  onData (Cabinet.sync (typename, st.nextSegment))
  fileStep id
  -- The manifest names it from the next commit of the manifest on.
  onState typename fun st =>
    { st with segments := st.segments ++ [st.nextSegment], nextSegment := st.nextSegment + 1 }

/-- The rows of a segment file under the columns of its class. -/
def readFile (data : Cabinet SegmentName (SegmentTable τ κ)) (typename : String)
    (columns : Dict String τ) (number : Nat) : Except MirrorErr (List (SegmentRow κ)) :=
  match (data (typename, number)).bind Whole.content with
  | none => .error (.unreadable typename number)
  | some t => .ok (L.readSegment columns t)

/-- Fold the segments of a class into one; the files that are obsolete now. -/
def compactType (typename : String) :
    EStateM MirrorErr (MirrorWorld τ κ) (List SegmentName) := do
  let w ← get
  let st := w.mirror.state typename
  let parts ← ofExcept (st.segments.mapM (readFile L w.disk.data typename st.columns))
  fileStep fun disk => { disk with
    -- The fold has no tombstones: nothing older is left to hide.
    data := disk.data.write (typename, st.nextSegment)
      ⟨st.columns, (foldLive parts).map fun r => (r.1, false, r.2)⟩
    folded := disk.folded ++ [(typename, st.nextSegment)] }
  onState typename fun st =>
    { st with segments := [st.nextSegment], nextSegment := st.nextSegment + 1 }
  -- The old files go only behind the manifest that stops naming them.
  pure (st.segments.map fun number => (typename, number))

/-- The manifest of a mirror. -/
def manifest (m : Mirror τ) : MirrorManifest τ where
  watermark := m.watermark
  only := m.only
  types := m.types
  tables := m.tables

/-- Replace the manifest. Nothing reads the temporary file it is written to. -/
def writeManifest : EStateM MirrorErr (MirrorWorld τ κ) Unit := do
  -- The temporary file and its sync.
  fileStep id
  fileStep id
  let w ← get
  fileStep fun disk => { disk with manifest := disk.manifest.replace w.mirror.manifest }
  fileStep fun disk => { disk with manifest := disk.manifest.sync }

/-- Change the columns of a class. -/
def onColumns (typename : String) (m : EStateM MirrorErr (Dict String τ) Unit) :
    EStateM MirrorErr (MirrorWorld τ κ) Unit :=
  zoom (fun w => (w.mirror.state typename).columns)
    (fun columns w => { w with
      mirror := w.mirror.setState typename { w.mirror.state typename with columns := columns } }) m

/-- Write the pending rows of one class, and fold its segments if there are too many. -/
def flushType (doomed : List SegmentName) (e : String × Dict Nat (Option Row)) :
    EStateM MirrorErr (MirrorWorld τ κ) (List SegmentName) :=
  if e.2.entries.isEmpty then pure doomed
  else do
    -- The columns first, as the rows are written under them.
    onColumns e.1 (L.widenRows e.2.values)
    writeSegment L e.1 e.2
    let w ← get
    -- The segment just written counts.
    if w.mirror.params.maxSegments < (w.mirror.state e.1).segments.length then do
      let obsolete ← compactType L e.1
      pure (doomed ++ obsolete)
    else pure doomed

/-- Commit the manifest, and remove the files it does not name any more. -/
def commitManifest (doomed : List SegmentName) : EStateM MirrorErr (MirrorWorld τ κ) Unit := do
  writeManifest
  doomed.forM fun name => onData (Cabinet.unlink name)

/-- Write the pending rows and commit the manifest. -/
def flush : EStateM MirrorErr (MirrorWorld τ κ) Unit := do
  let w ← get
  -- Class by class, in the order of the names.
  let pending := w.mirror.pending.entries.insertionSort fun e e' => e.1 ≤ e'.1
  let doomed ← pending.foldlM (flushType L) []
  commitManifest doomed
  -- The rows stay pending until the manifest names their segment.
  modify fun w => { w with mirror.pending := Dict.empty, mirror.appliesSinceFlush := 0 }

/-- Fold the segments of every class that has several. -/
def compact : EStateM MirrorErr (MirrorWorld τ κ) Unit := do
  flush L
  let w ← get
  let doomed ← w.mirror.tables.keys.foldlM (fun doomed typename => do
    let w ← get
    -- One segment without a fold is left alone.
    if (w.mirror.state typename).segments.length ≤ 1 then pure doomed
    else
      let obsolete ← compactType L typename
      pure (doomed ++ obsolete)) []
  commitManifest doomed

/-- Take one delta in; whether it was new. -/
def apply (d : Delta) : EStateM MirrorErr (MirrorWorld τ κ) Bool := do
  ofExcept ((checkDeltaHeader d).mapError .delta)
  let w ← get
  if d.tid ≤ w.mirror.watermark then pure false
  else if d.tid ≠ w.mirror.watermark + 1 then throw (.delta (.gap w.mirror.watermark d.tid))
  else
    -- Every op is decoded before anything changes.
    let lineage := learn w.mirror.types d.types
    let batch ← ofExcept (decodeOps types w.mirror.only lineage d.ops)
    let mirror : Mirror τ := { w.mirror with
      types := lineage, pending := batch.foldl addPending w.mirror.pending
      watermark := d.tid, appliesSinceFlush := w.mirror.appliesSinceFlush + 1 }
    set { w with mirror := mirror }
    -- The state is taken over before the flush that may fail.
    if mirror.params.flushEvery ≤ mirror.appliesSinceFlush then flush L
    pure true

/-- The table of a class: its columns, and the live rows by OID. -/
def table (typename : String) (w : MirrorWorld τ κ) :
    Except MirrorErr (Dict String τ × List (Nat × List (String × κ))) :=
  let st := w.mirror.state typename
  let pending := w.mirror.pendingOf typename
  -- The columns as the next flush would make them.
  match L.widenRows pending.values st.columns with
  | .error e _ => .error e
  | .ok _ columns =>
    match st.segments.mapM (readFile L w.disk.data typename columns) with
    | .error e => .error e
    | .ok parts =>
      -- What is not flushed yet is the newest part.
      let recent := if pending.entries.isEmpty then []
        else [(L.pendingTable columns pending).rows]
      .ok (columns, foldLive (parts ++ recent))

end Mirror

section Open

variable {τ κ : Type}

/-- A mirror with the state a manifest gives. -/
def loadMirror (m : Option (MirrorManifest τ)) (params : MirrorParams)
    (only : Option (List String)) : Except MirrorErr (Mirror τ) :=
  match m with
  | none => .ok { params := params, only := only }
  | some m =>
    if m.format ≠ mirrorFormat then .error .foreignFormat
    else if mirrorVersion < m.version then .error (.newerFormat m.version)
    -- The mirror was made for other classes.
    else if m.only ≠ only then .error .otherOnly
    else
      .ok { params := params, only := only, types := m.types, tables := m.tables
            watermark := m.watermark }

/-- The segment files some bookkeeping names. -/
def segmentNames (tables : Dict String (TableState τ)) : List SegmentName :=
  tables.entries.flatMap fun e => e.2.segments.map fun number => (e.1, number)

/-- Open a mirror, and sweep the files its manifest does not name. -/
def openMirror (params : MirrorParams) (only : Option (List String)) (disk : MirrorDisk τ κ) :
    Except MirrorErr (MirrorWorld τ κ) := do
  let mirror ← loadMirror disk.manifest.current params only
  .ok ⟨mirror, { disk with data := disk.data.keepOnly (segmentNames mirror.tables) }, none⟩

end Open

/-- The rows that deltas stand for, class by class. -/
structure Folded where
  types : Lineages := Dict.empty
  tables : String → Dict Nat Row := fun _ => Dict.empty

namespace Folded

/-- Put a row in its place, or take it away. -/
def place (tables : String → Dict Nat Row) (e : String × Nat × Option Row) :
    String → Dict Nat Row := fun typename =>
  if typename = e.1 then
    match e.2.2 with
    | some row => (tables typename).set e.2.1 row
    | none => (tables typename).erase e.2.1
  else tables typename

/-- Fold one delta. -/
def step (types : Types) (only : Option (List String)) (s : Folded) (d : Delta) : Folded :=
  let lineage := Mirror.learn s.types d.types
  match Mirror.decodeOps types only lineage d.ops with
  | .ok batch => ⟨lineage, batch.foldl place s.tables⟩
  | .error _ => s

/-- Fold deltas, one after the other. -/
def ofDeltas (types : Types) (only : Option (List String)) (ds : List Delta) : Folded :=
  ds.foldl (step types only) {}

end Folded

/-- What is done to a mirror; closing it is a flush. -/
inductive MirrorOp
  | apply (d : Delta)
  | flush
  | compact
  deriving DecidableEq

section Runs

variable {τ κ : Type} [DecidableEq τ] (L : Columnar τ κ) (types : Types)

def MirrorOp.run : MirrorOp → EStateM MirrorErr (MirrorWorld τ κ) Unit
  | .apply d => do
    let _ ← Mirror.apply L types d
    pure ()
  | .flush => Mirror.flush L
  | .compact => Mirror.compact L

/-- Whether a mirror takes a delta in: it is the next one, and can be decoded. -/
def Mirror.accepts (m : Mirror τ) (d : Delta) : Bool :=
  checkDeltaHeader d = .ok () ∧ d.tid = m.watermark + 1 ∧
    (Mirror.decodeOps types m.only (Mirror.learn m.types d.types) d.ops).isOk = true

/-- The delta an operation adds to a mirror. -/
def MirrorOp.taken (m : Mirror τ) : MirrorOp → List Delta
  | .apply d => if m.accepts types d then [d] else []
  | .flush => []
  | .compact => []

/-- What happens to a mirror. A crash may come in the middle of an operation, after
    so many of its file steps. -/
inductive MirrorEvent (τ κ : Type)
  | op (o : MirrorOp)
  | reopen (params : MirrorParams)
  | crash (during : Option (MirrorOp × Nat)) (lost : SegmentName → Bool)
      (back : SegmentName → Option (SegmentTable τ κ)) (kept : Bool) (params : MirrorParams)

/-- What a crash leaves of the files. -/
def MirrorDisk.crash (lost : SegmentName → Bool) (back : SegmentName → Option (SegmentTable τ κ))
    (kept : Bool) (disk : MirrorDisk τ κ) : MirrorDisk τ κ :=
  { disk with data := disk.data.crash lost back, manifest := disk.manifest.crash kept }

/-- The manifest a mirror would be opened with. -/
def MirrorDisk.committed (disk : MirrorDisk τ κ) : MirrorManifest τ :=
  disk.manifest.current.getD {}

/-- A mirror, and the deltas it was given and has not lost with a process. -/
structure MirrorRun (τ κ : Type) where
  world : MirrorWorld τ κ
  taken : List Delta := []
  /-- Whether it could not be opened again. -/
  refused : Bool := false

namespace MirrorRun

/-- An operation, cut off after so many file steps if a crash comes in it. -/
def act (o : MirrorOp) (left : Option Nat) (r : MirrorRun τ κ) : MirrorRun τ κ :=
  let w := finalState (o.run L types { r.world with left := left })
  { r with world := { w with left := none }, taken := r.taken ++ o.taken types r.world.mirror }

/-- A new process opens what is on disk: the deltas after the manifest are gone. -/
def opened (params : MirrorParams) (disk : MirrorDisk τ κ) (r : MirrorRun τ κ) : MirrorRun τ κ :=
  match openMirror params r.world.mirror.only disk with
  | .ok w => { r with
      world := w, taken := r.taken.filter fun d => d.tid ≤ disk.committed.watermark }
  | .error _ => { r with refused := true }

/-- The mirror at a crash, with the operation it comes in the middle of. -/
def cut (during : Option (MirrorOp × Nat)) (r : MirrorRun τ κ) : MirrorRun τ κ :=
  match during with
  | none => r
  | some (o, left) => r.act L types o (some left)

def step (r : MirrorRun τ κ) : MirrorEvent τ κ → MirrorRun τ κ
  | .op o => r.act L types o none
  | .reopen params => r.opened params r.world.disk
  | .crash during lost back kept params =>
    -- The operation under way ends at the step it had reached.
    let cut := r.cut L types during
    cut.opened params (cut.world.disk.crash lost back kept)

/-- The mirror after some events. -/
def run (r : MirrorRun τ κ) (events : List (MirrorEvent τ κ)) : MirrorRun τ κ :=
  events.foldl (step L types) r

/-- A new mirror. -/
def start (params : MirrorParams) (only : Option (List String)) : MirrorRun τ κ :=
  { world := ⟨{ params := params, only := only }, {}, none⟩ }

end MirrorRun

end Runs

end DataCrystal
