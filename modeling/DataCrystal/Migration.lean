import DataCrystal.Lib.Slices
import DataCrystal.Evolution

/-!
# Migrating a Store

`migrate` brings every record of an earlier shape to the shape of its live class: it loads
the entities, marks them dirty and commits, one batch after the other. Three places decide
about shapes. The shape that counts as current is the first one in the lineage with the
fields of the live class; the shapes before and after it are stale. A commit writes under
the last shape of the lineage if that has the fields of the live class, and under a new one
otherwise.

The model holds what these places look at: the lineages, the records by OID, the live
instances with their field values, and which of them are buffered. A record's payload is
what the decoder makes of it, which may be an exception. A load makes one instance, a buffered
instance may be new, and whether a commit is taken is left open.

What is written is not what was in the instance, but what the codec makes of it: a tuple comes
back as a list, a bytearray as bytes, a date that is a key of a dictionary as text. The codec
is a parameter here, field by field. An instance keeps its own values when it is written, so
that what it shows and what its record holds may be two things.

## Main definitions

* `Classes.recode`: What the values of an instance are read back as once they are written.
* `TypedStore`: The lineages, the records and the live instances.
* `TypedStore.loadOid`, `TypedStore.commit`: A load and a commit.
* `TypedStore.migrate`: The migration.
* `TypedStore.Coherent`: What holds of every store.
* `TypedStore.MigratesWell`: The records have the live shape and their values, and another
  migration does nothing.
* `TypedStore.Unambiguous`: Only the last shape of a lineage has the live fields.
* `TypedStore.Keeps`: Writing a record again leaves it with the values it holds.
-/

namespace DataCrystal

namespace Evolution

/-- What the decoder makes of a payload. -/
abbrev Stored (V : Type) := Except Raised (Unpacked V)

/-- The classes a process has, what a value of a field is read back as once it has been
    written, which fails where it cannot be written, and the labels of records that predate
    the protection of their class. -/
structure Classes (V : Type) where
  types : String → Option (LiveClass V)
  codec : FieldSpec V → V → Except Raised V
  legacyFills : String → Option V := fun _ => none

/-- The process, over payloads that are decoded. -/
def Classes.process {V : Type} (cl : Classes V) : Process V (Stored V) where
  types := cl.types
  decode := id
  legacyFills := cl.legacyFills

/-- What the values of an instance are read back as. -/
def Classes.recode {V : Type} (cl : Classes V) (ti : LiveClass V) (values : List V) :
    Except Raised (List V) :=
  (ti.specs.zip values).mapM fun e => cl.codec e.1 e.2

/-- The store, as far as a migration sees it. -/
structure TypedStore (V : Type) where
  /-- The shapes of every class, oldest first. -/
  cidsByTypename : Dict String (List ℤ)
  persistedFields : ℤ → List String
  nextCid : ℤ
  /-- Every record with the shape it was written in. -/
  objects : Dict ℤ (ℤ × Stored V)
  /-- The registered instances, with their class and the values of its fields. -/
  live : Dict ℤ (String × List V) := Dict.empty
  dirty : List ℤ := []

namespace TypedStore

variable {V : Type}

def lineage (s : TypedStore V) (typename : String) : List ℤ :=
  (s.cidsByTypename.get? typename).getD []

/-- The class of a shape. -/
def typenameByCid (s : TypedStore V) (cid : ℤ) : Option String :=
  (s.cidsByTypename.entries.find? fun e => e.2.contains cid).map Prod.fst

/-- The class of a record and the values of its fields. -/
def hydrated (cl : Classes V) (s : TypedStore V) (oid : ℤ) : Except Raised (String × List V) :=
  match s.objects.get? oid with
  | none => .error (.other "DanglingRefError")
  -- A class id without a row in the type dictionary.
  | some (cid, stored) =>
    match s.typenameByCid cid with
    | none => .error (.other "DataCrystalError")
    -- The row names a class that this process does not have.
    | some typename =>
      match cl.types typename with
      | none => .error .unregisteredType
      | some ti => do
        let values ← fillEntity cl.process ti (s.persistedFields cid) stored
        pure (typename, values)

/-- The live instance of an OID, made if there is none. -/
def loadOid (cl : Classes V) (s : TypedStore V) (oid : ℤ) : Except Raised (TypedStore V) :=
  match s.live.get? oid with
  -- An instance that is there is not read again.
  | some _ => .ok s
  | none => do
    let entity ← s.hydrated cl oid
    pure { s with live := s.live.set oid entity }

def markDirty (s : TypedStore V) (oid : ℤ) : TypedStore V :=
  if oid ∈ s.dirty then s else { s with dirty := s.dirty ++ [oid] }

/-- The shape a class is written in: the last one of its lineage, or a new one. -/
def cidFor (s : TypedStore V) (typename : String) (ti : LiveClass V) : ℤ × TypedStore V :=
  match ((s.lineage typename).getLast?).filter fun cid => s.persistedFields cid = ti.fieldNames with
  | some cid => (cid, s)
  -- Other fields, or another order of them: a new shape behind the others.
  | none =>
    (s.nextCid, { s with
      cidsByTypename := s.cidsByTypename.set typename (s.lineage typename ++ [s.nextCid])
      persistedFields := Function.update s.persistedFields s.nextCid ti.fieldNames
      nextCid := s.nextCid + 1 })

/-- Write the record of a live instance. -/
def writeRecord (cl : Classes V) (s : TypedStore V) (oid : ℤ) : Except Raised (TypedStore V) :=
  match s.live.get? oid with
  | none => .ok s
  | some (typename, values) =>
    match cl.types typename with
    | none => .ok s
    | some ti => do
      let kept ← cl.recode ti values
      let written := s.cidFor typename ti
      -- The instance stays as it is; only the record has the values that are read back.
      pure { written.2 with objects := written.2.objects.set oid (written.1, .ok (.list kept)) }

/-- Write every buffered instance; without any nothing happens. -/
def commit (cl : Classes V) (accepts : TypedStore V → Bool) (s : TypedStore V) :
    Except Raised (TypedStore V) :=
  if s.dirty = [] then .ok s
  -- A refusal keeps the buffer.
  else if accepts s then do
    let written ← s.dirty.foldlM (writeRecord cl) s
    pure { written with dirty := [] }
  else .error (.other "WriteDeniedError")

/-- The OIDs of the records of a shape, in order. -/
def scan (s : TypedStore V) (cid : ℤ) : List ℤ :=
  ((s.objects.entries.filter fun e => e.2.1 = cid).map Prod.fst).insertionSort (· ≤ ·)

/-- The first shape with the fields of the live class. -/
def current (s : TypedStore V) (typename : String) (ti : LiveClass V) : Option ℤ :=
  (s.lineage typename).find? fun cid => s.persistedFields cid = ti.fieldNames

/-- The other shapes. -/
def stale (s : TypedStore V) (typename : String) (ti : LiveClass V) : List ℤ :=
  (s.lineage typename).filter fun cid => s.current typename ti ≠ some cid

/-- The records of the other shapes. -/
def staleOids (s : TypedStore V) (typename : String) (ti : LiveClass V) : List ℤ :=
  (s.stale typename ti).flatMap s.scan

/-- `range(0, len(oids), batch)`, as the portions it leads to. -/
def batches (batch : ℤ) (oids : List ℤ) : Except Raised (List (List ℤ)) :=
  if batch = 0 then .error .valueError
  else if batch < 0 then .ok []
  else .ok (slices batch.toNat oids)

/-- Load a portion, mark it and commit. -/
def migrateChunk (cl : Classes V) (accepts : TypedStore V → Bool)
    (state : Nat × TypedStore V) (chunk : List ℤ) : Except Raised (Nat × TypedStore V) := do
  let s ← chunk.foldlM (loadOid cl) state.2
  let s ← (chunk.foldl markDirty s).commit cl accepts
  pure (state.1 + chunk.length, s)

/-- Migrate one class. -/
def migrateType (cl : Classes V) (accepts : TypedStore V → Bool) (batch : ℤ)
    (state : Nat × TypedStore V) (typename : String) : Except Raised (Nat × TypedStore V) :=
  match cl.types typename with
  -- No live class of that name: its records stay as they are.
  | none => .ok state
  | some ti =>
    -- Every record of it is under the current shape.
    if state.2.stale typename ti = [] then .ok state
    else do
      let chunks ← batches batch (state.2.staleOids typename ti)
      -- A chunk is one commit, so those before a failure are durable.
      chunks.foldlM (migrateChunk cl accepts) state

/-- Bring every record to the shape of its live class. -/
def migrate (cl : Classes V) (accepts : TypedStore V → Bool) (batch : ℤ) (s : TypedStore V) :
    Except Raised (Nat × TypedStore V) :=
  s.cidsByTypename.keys.foldlM (migrateType cl accepts batch) (0, s)

/-- A class has a record under an OID. -/
def IsRecord (s : TypedStore V) (typename : String) (oid : ℤ) : Prop :=
  ∃ cid stored, s.objects.get? oid = some (cid, stored) ∧ cid ∈ s.lineage typename

/-- A record or an instance of a class. A migration commits, and a commit writes
    whatever is buffered, so both kinds may be written. -/
def Belongs (s : TypedStore V) (typename : String) (oid : ℤ) : Prop :=
  s.IsRecord typename oid ∨ ∃ values, s.live.get? oid = some (typename, values)

/-- What holds of every store: shapes belong to one class and are numbered below the next
    one, an instance has a record unless it is new, and the record of one that is not buffered
    has its values if it was loaded, and what they are read back as if it was written. -/
structure Coherent (cl : Classes V) (s : TypedStore V) : Prop where
  disjoint : ∀ t t' cid, cid ∈ s.lineage t → cid ∈ s.lineage t' → t = t'
  nodup : ∀ t, (s.lineage t).Nodup
  fresh : ∀ t, ∀ cid ∈ s.lineage t, cid < s.nextCid
  records : ∀ oid cid stored, s.objects.get? oid = some (cid, stored) → cid < s.nextCid
  liveClass : ∀ oid t values, s.live.get? oid = some (t, values) →
    ∃ ti, cl.types t = some ti ∧ values.length = ti.specs.length
  liveRecord : ∀ oid t values, s.live.get? oid = some (t, values) →
    s.IsRecord t oid ∨ oid ∈ s.dirty ∧ s.objects.get? oid = none
  clean : ∀ oid t values, s.live.get? oid = some (t, values) → oid ∉ s.dirty →
    s.hydrated cl oid = .ok (t, values) ∨ ∃ ti kept, cl.types t = some ti ∧
      cl.recode ti values = .ok kept ∧ s.hydrated cl oid = .ok (t, kept)
  buffered : ∀ oid ∈ s.dirty, ∃ x, s.live.get? oid = some x

/-- The values the store shows for a record: those of the live instance, or what it
    hydrates to. -/
def shown (cl : Classes V) (s : TypedStore V) (oid : ℤ) : Option (String × List V) :=
  (s.live.get? oid).or (s.hydrated cl oid).toOption

/-- The values a record of the store has to keep: those of a buffered instance, or what the
    record hydrates to. -/
def held (cl : Classes V) (s : TypedStore V) (oid : ℤ) : Option (String × List V) :=
  if oid ∈ s.dirty then s.live.get? oid else (s.hydrated cl oid).toOption

/-- A migration left every record of a live class under a shape with the fields of the class,
    and hydrating to the values it had; what its instance shows has not changed either. -/
def Preserved (cl : Classes V) (s s' : TypedStore V) : Prop :=
  ∀ t ti, cl.types t = some ti → ∀ oid, s.IsRecord t oid →
    (∃ cid stored, s'.objects.get? oid = some (cid, stored) ∧ cid ∈ s'.lineage t ∧
      s'.persistedFields cid = ti.fieldNames) ∧
    s'.shown cl oid = s.shown cl oid ∧
    (oid ∉ s'.dirty → (s'.hydrated cl oid).toOption = s.held cl oid)

/-- A migration that returned has preserved the records, and another one does nothing. -/
def MigratesWell (cl : Classes V) (accepts : TypedStore V → Bool) (batch : ℤ)
    (s s' : TypedStore V) : Prop :=
  Preserved cl s s' ∧ s'.migrate cl accepts batch = .ok (0, s')

/-- A class has a record of another shape than the current one. -/
def HasStale (s : TypedStore V) (t : String) (ti : LiveClass V) : Prop :=
  ∃ oid, oid ∈ s.staleOids t ti

/-- No shape but the last one of the lineage has the fields of the live class. -/
def Unambiguous (s : TypedStore V) (t : String) (ti : LiveClass V) : Prop :=
  ∀ cid ∈ s.lineage t, s.persistedFields cid = ti.fieldNames → (s.lineage t).getLast? = some cid

/-- Writing the record again leaves it with the values it has to keep: what the
    encoding makes of the values the instance shows is what the record is held to
    show. -/
def Keeps (cl : Classes V) (s : TypedStore V) (t : String) (ti : LiveClass V) (oid : ℤ) : Prop :=
  ∀ values, s.shown cl oid = some (t, values) →
    ∃ kept, cl.recode ti values = .ok kept ∧ s.held cl oid = some (t, kept)

/-- A migration writes a record: a stale one, or that of a buffered instance with a commit
    that writes stale records. -/
def Rewritten (cl : Classes V) (s : TypedStore V) (oid : ℤ) : Prop :=
  (∃ t ti, cl.types t = some ti ∧ oid ∈ s.staleOids t ti) ∨
    oid ∈ s.dirty ∧ ∃ t ti, cl.types t = some ti ∧ s.HasStale t ti

/-- With batches of some size, no shape but the last one of a class that is written has the
    live fields, and what is written again is read back as it was; with batches of a negative
    size, nothing is left to migrate. -/
def Migratable (cl : Classes V) (batch : ℤ) (s : TypedStore V) : Prop :=
  (0 < batch → ∀ t ti, cl.types t = some ti →
    ((∃ oid, s.Belongs t oid ∧ Rewritten cl s oid) → s.Unambiguous t ti) ∧
    ∀ oid, s.IsRecord t oid → Rewritten cl s oid → Keeps cl s t ti oid) ∧
  (batch < 0 → ∀ t ti, cl.types t = some ti → ∀ oid cid stored,
    s.objects.get? oid = some (cid, stored) → cid ∈ s.lineage t →
      s.persistedFields cid = ti.fieldNames)

end TypedStore

end Evolution

end DataCrystal
