import Mathlib.Data.List.Sort
import DataCrystal.Lib.Dict
import DataCrystal.Lib.Digits
import DataCrystal.Lib.Crc
import DataCrystal.Lib.Slices

/-!
# The Two Backends

A commit reaches a storage backend as one batch. The backend in memory updates its
dictionaries, after everything that can fail has been done. The backend on disk runs
the batch through tables with primary keys, inside a transaction that is rolled back
when anything raises. A large value is streamed: the backend in memory joins the chunks
of the source, the one on disk fills the cell in place, chunk after chunk.

Here a payload is its bytes and the ids are integers, so that what a table refuses can
be said: a number of more than 64 bits, a row that is too large, and a type id that is
there already. The fields of a type are one text on disk, joined by a separator.

The transactions of the database are taken to be atomic, and its size limit is a
parameter, as are the digest and how a version number is read.

## Main definitions

* `CommitBatch`, `Chunks`: A batch, and what a source does when it is read.
* `MemoryBackend.apply`: The batch as updates of dictionaries.
* `Database.apply`: The batch as one transaction.
* `MemoryBackend.boot`, `Database.boot` and the other reads.
-/

namespace DataCrystal

namespace Storage

/-- The bytes of one record, under its OID. -/
structure StoredRecord where
  oid : ℤ
  cid : ℤ
  tid : ℤ
  payload : Bytes

/-- One out-of-line value. -/
structure StoredBlob where
  oid : ℤ
  tid : ℤ
  size : ℤ
  hash : Bytes
  data : Bytes

/-- What a source does when it is read: the chunks it yields, and whether it raises
    after them. -/
structure Chunks where
  yielded : List Bytes
  raises : Bool := false

/-- An out-of-line value that is written by streaming. Size and digest are those of an
    earlier reading. -/
structure StreamedBlob where
  oid : ℤ
  tid : ℤ
  size : ℤ
  hash : Bytes
  openChunks : Chunks

/-- A row of the type dictionary. -/
structure TypeRow where
  cid : ℤ
  name : Text
  fields : List Text
  deriving DecidableEq

/-- Everything one commit persists. -/
structure CommitBatch where
  records : List StoredRecord := []
  newTypes : List TypeRow := []
  metaRows : Dict Text Text := Dict.empty
  deletes : List ℤ := []
  blobs : List StoredBlob := []
  blobStreams : List StreamedBlob := []

/-- What a backend starts from. -/
structure BootInfo where
  metaRows : Dict Text Text
  types : List TypeRow

/-- What storage raises. -/
inductive StorageErr
  | valueError
  | sourceError
  | keyError
  | newerStore
  | integrityError
  | overflowError
  | tooBig
  | corruptRecord
  deriving DecidableEq

/-- The version of the store format. -/
def formatVersion : Nat := 2

/-- The key the version is stored under. -/
def versionKey : Text :=
  ['f', 'o', 'r', 'm', 'a', 't', '_', 'v', 'e', 'r', 's', 'i', 'o', 'n']

/-- What both backends are given: the digest, `int` of a text, and whether a row with
    values of these sizes can be stored. -/
structure Platform where
  sha256 : Bytes → Bytes
  intOf : Text → Option ℤ
  rowFits : List Nat → Bool

/-- Refuse a store of a newer version. -/
def checkVersion (stored : ℤ) : Except StorageErr Unit :=
  if (formatVersion : ℤ) < stored then .error .newerStore else .ok ()

/-- `int(text)`. -/
def readVersion (p : Platform) (text : Text) : Except StorageErr ℤ :=
  match p.intOf text with
  | none => .error .valueError
  | some n => .ok n

/-- The backend in memory. -/
structure MemoryBackend where
  metaRows : Dict Text Text := Dict.empty.set versionKey (natText formatVersion)
  types : List TypeRow := []
  objects : Dict ℤ StoredRecord := Dict.empty
  blobs : Dict ℤ StoredBlob := Dict.empty

/-- Insert every row of a list, under its key. -/
def putAll {α : Type} (key : α → ℤ) (d : Dict ℤ α) (rows : List α) : Dict ℤ α :=
  rows.foldl (fun d row => d.set (key row) row) d

/-- Drop every key of a list. -/
def dropAll {α : Type} (d : Dict ℤ α) (oids : List ℤ) : Dict ℤ α := oids.foldl Dict.erase d

namespace MemoryBackend

def boot (p : Platform) (m : MemoryBackend) : Except StorageErr BootInfo := do
  match m.metaRows.get? versionKey with
  | none => .error .keyError
  | some text => do
    let stored ← readVersion p text
    checkVersion stored
    pure ⟨m.metaRows, m.types⟩

def loadMany (m : MemoryBackend) (oids : List ℤ) : Dict ℤ StoredRecord :=
  oids.foldl (fun out oid =>
    match m.objects.get? oid with
    | none => out
    | some r => out.set oid r) Dict.empty

def scanType (m : MemoryBackend) (cid : ℤ) : List StoredRecord :=
  (m.objects.values.filter fun r => r.cid = cid).insertionSort fun r r' => r.oid ≤ r'.oid

def loadBlob (m : MemoryBackend) (oid : ℤ) : Option StoredBlob := m.blobs.get? oid

/-- Read the sources, before anything changes. -/
def materialize (p : Platform) : List StreamedBlob → Except StorageErr (List StoredBlob)
  | [] => pure []
  | sb :: rest => do
    if sb.openChunks.raises then throw .sourceError
    let data := sb.openChunks.yielded.flatten
    -- The pass that hashed the source has declared its size and hash; this pass may differ.
    if (data.length : ℤ) ≠ sb.size then throw .valueError
    if p.sha256 data ≠ sb.hash then throw .valueError
    let streamed ← materialize p rest
    pure (⟨sb.oid, sb.tid, sb.size, sb.hash, data⟩ :: streamed)

/-- Apply a batch. -/
def apply (p : Platform) (m : MemoryBackend) (batch : CommitBatch) :
    Except StorageErr Unit × MemoryBackend :=
  match materialize p batch.blobStreams with
  | .error e => (.error e, m)
  -- A source that fails leaves every dictionary alone.
  | .ok streamed =>
    (.ok (), {
      -- The types, the records, the blobs, the deletions and the meta rows, all behind that.
      metaRows := batch.metaRows.entries.foldl (fun d e => d.set e.1 e.2) m.metaRows
      types := m.types ++ batch.newTypes
      objects := dropAll (putAll StoredRecord.oid m.objects batch.records) batch.deletes
      blobs := putAll StoredBlob.oid (putAll StoredBlob.oid m.blobs batch.blobs) streamed })

end MemoryBackend

/-- A row of the table of objects. -/
structure ObjectRow where
  cid : ℤ
  tid : ℤ
  payload : Bytes
  crc : BitVec 32

/-- A row of the table of blobs. -/
structure BlobRow where
  tid : ℤ
  size : ℤ
  hash : Bytes
  crc : BitVec 32
  data : Bytes

/-- The tables, each with its primary key. -/
structure Database where
  metaRows : Dict Text Text := Dict.empty
  types : Dict ℤ (Text × Text) := Dict.empty
  objects : Dict ℤ ObjectRow := Dict.empty
  blobs : Dict ℤ BlobRow := Dict.empty

/-- The separator between the fields of a type. -/
def fieldSeparator : Char := Char.ofNat 0x1f

def joinFields (fields : List Text) : Text := [fieldSeparator].intercalate fields

def splitFields (text : Text) : List Text := if text = [] then [] else text.splitOn fieldSeparator

/-- A number of 64 bits. -/
def IsInteger (n : ℤ) : Prop := -2 ^ 63 ≤ n ∧ n < 2 ^ 63

instance (n : ℤ) : Decidable (IsInteger n) := inferInstanceAs (Decidable (_ ∧ _))

/-- The size of a text in bytes. -/
def textBytes (t : Text) : Nat := (t.map Char.utf8Size).sum

/-- Bind numbers to a statement. -/
def bindInts (ns : List ℤ) : Except StorageErr Unit :=
  if ∀ n ∈ ns, IsInteger n then .ok () else .error .overflowError

/-- Store a row of values of these sizes. -/
def fitRow (p : Platform) (sizes : List Nat) : Except StorageErr Unit :=
  if p.rowFits sizes then .ok () else .error .tooBig

/-- How far a cell is filled: its bytes, how many were written, the running checksum and
    what the digest has been given. -/
structure Fill where
  cell : Bytes
  written : Nat
  runningCrc : BitVec 32
  hashed : Bytes

namespace Database

/-- `INSERT INTO types`. -/
def insertType (p : Platform) (db : Database) (row : TypeRow) : Except StorageErr Database := do
  bindInts [row.cid]
  fitRow p [textBytes row.name, textBytes (joinFields row.fields)]
  if db.types.contains row.cid then throw .integrityError
  pure { db with types := db.types.set row.cid (row.name, joinFields row.fields) }

/-- `INSERT OR REPLACE INTO objects`. -/
def replaceObject (p : Platform) (db : Database) (r : StoredRecord) :
    Except StorageErr Database := do
  bindInts [r.oid, r.cid, r.tid]
  fitRow p [r.payload.length]
  pure { db with objects := db.objects.set r.oid ⟨r.cid, r.tid, r.payload, crc32 r.payload 0⟩ }

/-- `INSERT OR REPLACE INTO blobs`. -/
def replaceBlob (p : Platform) (db : Database) (b : StoredBlob) : Except StorageErr Database := do
  bindInts [b.oid, b.tid, b.size]
  fitRow p [b.hash.length, b.data.length]
  pure { db with blobs := db.blobs.set b.oid ⟨b.tid, b.size, b.hash, crc32 b.data 0, b.data⟩ }

/-- Overwrite a cell from a position on. -/
def writeAt (cell : Bytes) (pos : Nat) (chunk : Bytes) : Bytes :=
  cell.take pos ++ chunk ++ cell.drop (pos + chunk.length)

/-- One chunk into the cell. -/
def fillChunk (size : ℤ) (f : Fill) (chunk : Bytes) : Except StorageErr Fill :=
  if size < f.written + chunk.length then .error .valueError
  else .ok ⟨writeAt f.cell f.written chunk, f.written + chunk.length, crc32 chunk f.runningCrc,
    f.hashed ++ chunk⟩

/-- Allocate a cell of zeros and fill it from the source. -/
def fillStream (p : Platform) (db : Database) (sb : StreamedBlob) :
    Except StorageErr Database := do
  bindInts [sb.oid, sb.tid, sb.size]
  fitRow p [sb.hash.length, sb.size.toNat]
  -- The cell is a row already while it is filled; a transaction that fails rolls it back.
  let zeroblob := List.replicate sb.size.toNat 0
  let db := { db with blobs := db.blobs.set sb.oid ⟨sb.tid, sb.size, sb.hash, 0, zeroblob⟩ }
  let fill ← sb.openChunks.yielded.foldlM (fillChunk sb.size) ⟨zeroblob, 0, 0, []⟩
  -- A source that raises does so behind its last chunk.
  if sb.openChunks.raises then throw .sourceError
  if (fill.written : ℤ) ≠ sb.size then throw .valueError
  if p.sha256 fill.hashed ≠ sb.hash then throw .valueError
  -- The checksum is patched in last.
  pure { db with
    blobs := db.blobs.set sb.oid ⟨sb.tid, sb.size, sb.hash, fill.runningCrc, fill.cell⟩ }

/-- `DELETE FROM objects`. -/
def deleteObject (db : Database) (oid : ℤ) : Except StorageErr Database := do
  bindInts [oid]
  pure { db with objects := db.objects.erase oid }

/-- `INSERT OR REPLACE INTO meta`. -/
def replaceMeta (p : Platform) (db : Database) (e : Text × Text) : Except StorageErr Database := do
  fitRow p [textBytes e.1, textBytes e.2]
  pure { db with metaRows := db.metaRows.set e.1 e.2 }

/-- Run a program in a transaction. -/
def transaction (db : Database) (body : Database → Except StorageErr Database) :
    Except StorageErr Unit × Database :=
  match body db with
  | .ok db' => (.ok (), db')
  | .error e => (.error e, db)

/-- The statements of a batch. -/
def statements (p : Platform) (batch : CommitBatch) (db : Database) :
    Except StorageErr Database := do
  let db ← batch.newTypes.foldlM (insertType p) db
  let db ← batch.records.foldlM (replaceObject p) db
  let db ← batch.blobs.foldlM (replaceBlob p) db
  let db ← batch.blobStreams.foldlM (fillStream p) db
  let db ← batch.deletes.foldlM deleteObject db
  batch.metaRows.entries.foldlM (replaceMeta p) db

/-- Apply a batch. -/
def apply (p : Platform) (db : Database) (batch : CommitBatch) :
    Except StorageErr Unit × Database :=
  db.transaction (statements p batch)

/-- `SELECT cid, name, fields FROM types ORDER BY cid`. -/
def selectTypes (db : Database) : List TypeRow :=
  (db.types.entries.insertionSort fun e f => e.1 ≤ f.1).map fun e =>
    ⟨e.1, e.2.1, splitFields e.2.2⟩

/-- Stamp a store that has no version, refuse a newer one, and read what there is. -/
def boot (p : Platform) (db : Database) : Except StorageErr BootInfo × Database :=
  match db.metaRows.get? versionKey with
  | none =>
    -- A new store is stamped with the version of this code.
    let db' := { db with metaRows := db.metaRows.set versionKey (natText formatVersion) }
    (.ok ⟨db'.metaRows, db'.selectTypes⟩, db')
  | some text =>
    (do
      let stored ← readVersion p text
      checkVersion stored
      pure ⟨db.metaRows, db.selectTypes⟩, db)

/-- Refuse a value whose checksum is another one. -/
def checkCrc (data : Bytes) (stored : BitVec 32) : Except StorageErr Unit :=
  if crc32 data 0 = stored then .ok () else .error .corruptRecord

/-- One row of a query for records. -/
def readObject (e : ℤ × ObjectRow) : Except StorageErr StoredRecord := do
  checkCrc e.2.payload e.2.crc
  pure ⟨e.1, e.2.cid, e.2.tid, e.2.payload⟩

/-- The OIDs in portions of 500. -/
def loadChunk : Nat := 500

def portions (oids : List ℤ) : List (List ℤ) := slices loadChunk oids

def loadPortion (db : Database) (out : Dict ℤ StoredRecord) (portion : List ℤ) :
    Except StorageErr (Dict ℤ StoredRecord) := do
  bindInts portion
  (db.objects.entries.filter fun e => portion.contains e.1).foldlM (fun out e => do
    let r ← readObject e
    pure (out.set e.1 r)) out

def loadMany (db : Database) (oids : List ℤ) : Except StorageErr (Dict ℤ StoredRecord) :=
  (portions oids).foldlM db.loadPortion Dict.empty

def scanType (db : Database) (cid : ℤ) : Except StorageErr (List StoredRecord) := do
  bindInts [cid]
  ((db.objects.entries.filter fun e => e.2.cid = cid).insertionSort fun e f =>
    e.1 ≤ f.1).mapM readObject

def loadBlob (db : Database) (oid : ℤ) : Except StorageErr (Option StoredBlob) := do
  bindInts [oid]
  match db.blobs.get? oid with
  | none => pure none
  | some row => do
    checkCrc row.data row.crc
    pure (some ⟨oid, row.tid, row.size, row.hash, row.data⟩)

end Database

end Storage

end DataCrystal
