import DataCrystal.Lib.Raise
import DataCrystal.Lib.Dict
import DataCrystal.Backends

/-!
# Records of Earlier Shapes

A class may have been persisted in several shapes, each a list of field names under an
id of its own. A record is decoded by the shape it was written in, and a plan says for
every field of the live class where its value comes from: a column of the record, under
the field's name or the one it was renamed from; a function of the old record; the
fixed labels of a class that has become protected; or the field's default.

Values are whatever the decoder yields, so the results hold for any of them. The decoder,
the functions on old records and the default factories belong to the store's surroundings;
what they raise is told apart only as far as the code tells it apart. A payload is an array
of values as a rule, but a damaged one may hold any message, so that taking its length or one
of its items may raise as well.

## Main definitions

* `LiveClass`: What the process knows of a class.
* `Unpacked`: What a payload is decoded to.
* `hydrationPlan`, `fillEntity`: Decoding a record to its live class.
* `decodeCheck`: The probe of a record, without an entity.
* `Contents.verify`: The records that do not decode.
* `Contents.onSqlite`, `Contents.inMemory`: What the scans of a backend meet.
-/

namespace DataCrystal

namespace Evolution

/-- What is raised, by the exceptions `verify` knows. An exception of a class derived from
    one of them is of that family. -/
inductive Raised
  | schemaMismatch
  | valueError
  | keyError
  | typeError
  | indexError
  | corruptRecord
  | unregisteredType
  | other (cls : String)
  deriving DecidableEq

/-- `except (SchemaMismatchError, ValueError, KeyError, TypeError, IndexError)`. -/
def Raised.caught : Raised → Bool
  | .schemaMismatch => true
  | .valueError => true
  | .keyError => true
  | .typeError => true
  | .indexError => true
  -- A wrong checksum leaves through the record scan.
  | .corruptRecord => false
  | .unregisteredType => false
  -- And so does whatever a glue or a default raises besides the five.
  | .other _ => false

section Classes

variable (V : Type)

/-- A field of a live class. -/
structure FieldSpec where
  name : String
  renamedFrom : Option String := none
  /-- The value of a field no shape has, from the old record. -/
  glue : Option (Dict String V → Except Raised V) := none

/-- What the process knows of a class: its fields, whether it is protected, and the
    default factories of its fields. A factory is known by what a call of it returns or
    raises. -/
structure LiveClass where
  specs : List (FieldSpec V)
  isProtected : Bool := false
  defaults : String → Option (Except Raised V) := fun _ => none
  names_nodup : (specs.map FieldSpec.name).Nodup

/-- A step of a plan: the column of the value, or else the factory of a field that has no
    column. -/
structure PlanEntry where
  spec : FieldSpec V
  index : Option Nat
  factory : Option (Except Raised V)

/-- What a payload is decoded to, as far as it is looked at: its length, its items, and what
    a loop over it yields. A map has no items by position, and a number no length. -/
structure Unpacked where
  len : Except Raised Nat
  item : Nat → Except Raised V
  iter : List V

end Classes

variable {V P : Type}

def LiveClass.fieldNames (ti : LiveClass V) : List String := ti.specs.map FieldSpec.name

/-- An array of values, as every payload is that the store has written. -/
def Unpacked.list (values : List V) : Unpacked V where
  len := .ok values.length
  item i :=
    match values[i]? with
    | some v => .ok v
    | none => .error .indexError
  iter := values

/-- Where a name stands in a shape. -/
def position (persisted : List String) (name : String) : Option Nat :=
  (Dict.ofList persisted.zipIdx).get? name

/-- Where the value of a field comes from. -/
def planField (legacyFills : String → Option V) (ti : LiveClass V) (persisted : List String)
    (spec : FieldSpec V) : Except Raised (PlanEntry V) :=
  let index := (position persisted spec.name).or (spec.renamedFrom.bind (position persisted))
  match index with
  | some i => .ok ⟨spec, some i, none⟩
  | none =>
    if spec.glue.isSome then .ok ⟨spec, none, none⟩
    else
      match if ti.isProtected then legacyFills spec.name else none with
      | some v => .ok ⟨spec, none, some (.ok v)⟩
      | none =>
        -- The plan holds the factory; it is called when an entity is filled.
        match ti.defaults spec.name with
        | some factory => .ok ⟨spec, none, some factory⟩
        | none => .error .schemaMismatch

/-- The plan of a shape for a live class. -/
def hydrationPlan (legacyFills : String → Option V) (ti : LiveClass V) (persisted : List String) :
    Except Raised (List (PlanEntry V)) :=
  ti.specs.mapM (planField legacyFills ti persisted)

/-- The old record by the names of its shape. -/
def byName (persisted : List String) (values : List V) : Dict String V :=
  Dict.ofList (persisted.zip values)

/-- What the process is given: the classes it has, the decoder of payloads, and the labels
    of records that predate the protection of their class. -/
structure Process (V P : Type) where
  types : String → Option (LiveClass V)
  decode : P → Except Raised (Unpacked V)
  legacyFills : String → Option V

/-- The value of a field of the live class. -/
def fillField (persisted : List String) (values : Unpacked V) (e : PlanEntry V) :
    Except Raised V :=
  match e.index, e.spec.glue, e.factory with
  -- The column of the record, wherever the class has the field now.
  | some i, _, _ => values.item i
  | none, some glue, _ => glue (byName persisted values.iter)
  | none, none, some factory => factory
  | none, none, none => .error .typeError

/-- The values of an entity, in the order of its fields. -/
def fillEntity (p : Process V P) (ti : LiveClass V) (persisted : List String) (payload : P) :
    Except Raised (List V) := do
  let plan ← hydrationPlan p.legacyFills ti persisted
  let values ← p.decode payload
  -- The length of what the payload decoded to, an array or not.
  let width ← values.len
  if width ≠ persisted.length then throw .schemaMismatch
  plan.mapM (fillField persisted values)

/-- Run the function of a field on the old record, if the plan calls for it. Columns are not
    read and factories are not called here. -/
def runGlue (persisted : List String) (values : Unpacked V) (e : PlanEntry V) :
    Except Raised Unit :=
  match e.index, e.spec.glue with
  | none, some glue => do
    let _ ← glue (byName persisted values.iter)
    pure ()
  | _, _ => pure ()

/-- Probe a record, without an entity. -/
def decodeCheck (p : Process V P) (ti : LiveClass V) (persisted : List String) (payload : P) :
    Except Raised Unit := do
  let plan ← hydrationPlan p.legacyFills ti persisted
  let values ← p.decode payload
  let width ← values.len
  if width ≠ persisted.length then throw .schemaMismatch
  -- As hydration, but no column is read and no factory called.
  plan.forM (runGlue persisted values)

/-- What a store holds: the shapes of every class, oldest first, the fields of every
    shape, and under every OID the shape of a record and what reading the record gives. -/
structure Contents (P : Type) where
  cidsByTypename : Dict String (List ℤ)
  persistedFields : ℤ → List String
  objects : Dict ℤ (ℤ × Except Raised P)

namespace Contents

/-- The records of a shape, by their OIDs. The loop over them ends with the first one that
    cannot be read. -/
def scanType (c : Contents P) (cid : ℤ) : List (ℤ × Except Raised P) :=
  ((c.objects.entries.filter fun e => e.2.1 = cid).insertionSort fun e f => e.1 ≤ f.1).map
    fun e => (e.1, e.2.2)

/-- Decode a record to the class of its name. -/
def probe (p : Process V P) (c : Contents P) (typename : String) (cid : ℤ) (payload : P) :
    Except Raised Unit :=
  match p.types typename with
  | none => .error .schemaMismatch
  | some ti => decodeCheck p ti (c.persistedFields cid) payload

/-- One record of a scan. -/
def verifyRecord (p : Process V P) (c : Contents P) (typename : String) (cid : ℤ)
    (failures : List (String × ℤ)) (row : ℤ × Except Raised P) :
    Except Raised (List (String × ℤ)) := do
  -- The scan itself raises on a wrong checksum.
  let payload ← row.2
  match c.probe p typename cid payload with
  | .ok _ => pure failures
  -- Five families are a failure of the record, any other leaves.
  | .error e => if e.caught then pure (failures ++ [(typename, row.1)]) else throw e

/-- The records that do not decode to their live class. -/
def verify (p : Process V P) (c : Contents P) : Except Raised (List (String × ℤ)) :=
  c.cidsByTypename.entries.foldlM (fun failures e =>
    e.2.foldlM (fun failures cid =>
      (c.scanType cid).foldlM (c.verifyRecord p e.1 cid) failures) failures) []

/-- What the scans of a database meet: every row is checked against its checksum. -/
def onSqlite (cidsByTypename : Dict String (List ℤ)) (persistedFields : ℤ → List String)
    (db : Storage.Database) : Contents Bytes where
  cidsByTypename := cidsByTypename
  persistedFields := persistedFields
  objects := db.objects.mapVal fun oid row =>
    (row.cid, match Storage.Database.readObject (oid, row) with
      | .ok r => .ok r.payload
      | .error _ => .error .corruptRecord)

/-- What the scans meet in memory, where there is no checksum. -/
def inMemory (cidsByTypename : Dict String (List ℤ)) (persistedFields : ℤ → List String)
    (m : Storage.MemoryBackend) : Contents Bytes where
  cidsByTypename := cidsByTypename
  persistedFields := persistedFields
  objects := m.objects.mapVal fun _ r => (r.cid, .ok r.payload)

end Contents

end Evolution

end DataCrystal
