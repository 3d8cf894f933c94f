import DataCrystal.Classes
import DataCrystal.Heap
import DataCrystal.Storage
import DataCrystal.Index.Build

/-!
# The Index Manager

The manager builds the indexes of a class on first use and folds every commit
into the indexes that are built. A class that is not built needs nothing: its
build will scan the records.

A session may start with the blobs an earlier one left, an index per class and
the reverse postings. A blob is loaded instead of a build as long as no commit
has touched its class; `invalidateStaleBlob` and the first line of `apply` are
where a commit drops the blobs it makes stale.

The reverse index maps an OID to the records that refer to it. It is kept as the
set of its edges, target first, so a posting that became empty is no posting.
Next to it the manager remembers what each record refers to, so that a write
can be folded in by difference; after a load that memory is recovered on the
first fold.

## Main definitions

* `IndexBlob`: What a class's index is cached as.
* `IndexManager`: The indexes of a session.
* `ensure`, `ensureReverse`: Build or load on first use.
* `checkUnique`, `checkSortedTemporal`: What a commit is refused for.
* `apply`, `applyDeletes`, `applyReverse`, `removeReverse`: Folding a commit in.
-/

namespace DataCrystal

/-- An index as the sidecar keeps it: the sorted runs and the memory are
    recovered. -/
structure IndexBlob where
  extent : Finset Nat
  eq : Dict String (Dict (Option Key) (Finset Nat))
  /-- Per field, the keys that are dumped as `Decimal`s. -/
  decimals : String → Key → Bool
  unique : Dict String (Dict Key Nat)
  listFields : List String
  sortedFields : List String

/-- One entity of a commit as the indexes see it: its OID, its class and the
    values of its maintained fields. -/
abbrev IndexEntry := Nat × String × List (String × Val LiveRef)

/-- One entity of a commit as the reverse index sees it: its OID and the OIDs
    it refers to. -/
abbrev RefEntry := Nat × Finset Nat

namespace ClassIndexes

def dump (ci : ClassIndexes) : IndexBlob where
  extent := ci.extent
  eq := ci.eq
  decimals := ci.decimals
  unique := ci.unique
  listFields := ci.listFields
  sortedFields := ci.sortedFields

/-- The indexes of a blob before their runs are sorted. -/
def ofBlob (blob : IndexBlob) : ClassIndexes where
  extent := blob.extent
  eq := blob.eq
  decimals := blob.decimals
  unique := blob.unique
  listFields := blob.listFields
  sortedFields := blob.sortedFields
  -- The runs are not in the blob: their keys are sorted again at the end.
  sortedKeys := Dict.ofList (blob.sortedFields.map fun f => (f, []))
  building := false
  lastValues := fun _ => none
  -- Nor are the remembered values, which the first write derives.
  needsLvRebuild := true

/-- Whether a blob was made under the markers the class has now. -/
def blobMatches (blob : IndexBlob) (ti : TypeInfo) : Bool :=
  blob.eq.keys.isPerm ti.eqIndexFields && blob.unique.keys.isPerm ti.uniqueFields &&
    blob.listFields.isPerm ti.listFields && blob.sortedFields.isPerm ti.sortedFields

/-- Recover the indexes of a blob, if the markers of the class still match. -/
def load (blob : IndexBlob) (ti : TypeInfo) : Except Err (Option ClassIndexes) :=
  -- The fields and their markers are those the blob was dumped under.
  if blobMatches blob ti then
    match finalizeBuild (ofBlob blob) with
    | .ok _ ci => .ok (some ci)
    | .error e _ => .error e
  else .ok none

end ClassIndexes

/-- The OIDs a decoded record refers to. -/
def harvestRefOids (payload : List (Val Token)) : Finset Nat :=
  ((payload.flatMap Val.leaves).filterMap fun t =>
    match t with
    | .ref oid => some oid
    | .blob _ _ => none).toFinset

/-- Edges of the reverse index: a target and a record that refers to it. -/
abbrev RefEdges := Finset (Nat × Nat)

/-- The indexes of a session. -/
structure IndexManager where
  byCls : Dict String ClassIndexes := Dict.empty
  cacheBlobs : Option (Dict String IndexBlob) := none
  /-- The postings: per OID, the records that refer to it. -/
  reverse : Option RefEdges := none
  /-- The memory: per record, the OIDs it refers to. -/
  reverseRefs : RefEdges := ∅
  reverseBlob : Option RefEdges := none
  reverseRefsDirty : Bool := false

namespace IndexManager

instance : Inhabited IndexManager := ⟨{}⟩

def setCls (c : String) (ci : ClassIndexes) (m : IndexManager) : IndexManager :=
  { m with byCls := m.byCls.set c ci }

/-- The cached index of a class, if there is one the class can use. -/
def cached (m : IndexManager) (types : Types) (c : String) : Except Err (Option ClassIndexes) :=
  match m.cacheBlobs.bind fun blobs => blobs.get? c with
  | some blob => ClassIndexes.load blob (types.info c)
  | none => .ok none

/-- The indexes of a class, built or loaded on first use. -/
def ensure (types : Types) (b : Backend) (lineage : Lineage) (c : String) :
    EStateM Err IndexManager ClassIndexes := do
  let m ← get
  match m.byCls.get? c with
  | some ci => pure ci
  | none =>
    let loaded ← ofExcept (m.cached types c)
    match loaded with
    -- The blob of the cache, if its markers are those of the class.
    | some ci =>
      modify (setCls c ci)
      pure ci
    | none =>
      let ci ← ofExcept (buildClassIndexes (types.info c) lineage b.scanType)
      modify (setCls c ci)
      pure ci

/-- The value of a field in an index entry; an absent field is `None`. -/
def entryValue (values : List (String × Val LiveRef)) (f : String) : Val LiveRef :=
  ((values.find? fun e => e.1 = f).map Prod.snd).getD .none

/-- The unique values met so far in a commit, with the OID that has each. -/
abbrev Seen := List (String × String × Val LiveRef × Nat)

/-- One unique value of a commit: free, held by the entity itself, or held by
    an entity the commit deletes. -/
def checkUniqueField (ci : ClassIndexes) (deleted : List Nat) (oid : Nat) (c f : String)
    (v : Val LiveRef) (seen : Seen) : Except Err Seen :=
  match v with
  | .none => .ok seen
  | _ =>
    match v.lookupKey with
    | .error e => .error (.value e)
    | .ok key =>
      -- A value that this commit takes from a deleted entity is free.
      let existing := ((key.bind id).bind (ci.holder f)).filter fun n => !deleted.contains n
      if (existing.map fun n => n != oid).getD false then .error (.uniqueViolation f existing)
      else
        -- Two entities of one commit with one value.
        match seen.find? fun e => e.1 = c && e.2.1 = f && v.same e.2.2.1 with
        -- The same entity may say the same value twice.
        | some e => if e.2.2.2 ≠ oid then .error (.uniqueViolation f none) else .ok seen
        | none => .ok ((c, f, v, oid) :: seen)

/-- The unique values of one entity of a commit. -/
def checkUniqueEntry (types : Types) (b : Backend) (lineage : String → Lineage)
    (deleted : List Nat) (seen : Seen) (e : IndexEntry) : EStateM Err IndexManager Seen := do
  let fields := (types.info e.2.1).uniqueFields
  -- Without a unique field no index is built.
  if fields.isEmpty then pure seen
  else
    let ci ← ensure types b (lineage e.2.1) e.2.1
    ofExcept (fields.foldlM (fun seen f =>
      checkUniqueField ci deleted e.1 e.2.1 f (entryValue e.2.2 f) seen) seen)

/-- No commit may create a duplicate unique value; `None` never collides. -/
def checkUnique (types : Types) (b : Backend) (lineage : String → Lineage)
    (entries : List IndexEntry) (deleted : List Nat) : EStateM Err IndexManager Unit := do
  let _ ← entries.foldlM (checkUniqueEntry types b lineage deleted) []
  pure ()

/-- A datetime key met earlier in the commit, per class and field. -/
abbrev Firsts := List (String × String × Key)

/-- One value of a sorted field: no decimal NaN, and no mix of naive and aware
    datetimes with the run or with the commit itself. -/
def checkSortedField (ci : Option ClassIndexes) (c f : String) (v : Val LiveRef)
    (first : Firsts) : Except Err Firsts :=
  match v with
  | .scalar s =>
    if s.key.family = .nan && (s matches .num .decimal _) then .error (.decimalNan f)
    else if s.key.isDatetime then
      -- The first datetime of this commit, else the first key of the run.
      let existing := ((first.find? fun e => e.1 = c && e.2.1 = f).map fun e => e.2.2).or
        (ci.bind fun ci => (ci.run f).head?)
      match existing with
      | some k => if mixesTemporal s.key k then .error (.mixedTemporalIndex f) else .ok first
      | none => .ok ((c, f, s.key) :: first)
    -- A number or a string is not looked at before the fold.
    else .ok first
  | _ => .ok first

/-- A sorted datetime field holds naive values or aware ones; an index that is
    not built is not built for this. -/
def checkSortedTemporal (types : Types) (m : IndexManager) (entries : List IndexEntry) :
    Except Err Firsts :=
  entries.foldlM (fun first e =>
    (types.info e.2.1).sortedFields.foldlM (fun first f =>
      checkSortedField (m.byCls.get? e.2.1) e.2.1 f (entryValue e.2.2 f) first) first) []

/-- Drop the blob of a class whose records change before its build. -/
def invalidateStaleBlob (c : String) (m : IndexManager) : IndexManager :=
  { m with cacheBlobs := m.cacheBlobs.map fun blobs => blobs.erase c }

/-- A write before the reverse index materialises makes its blob stale. -/
def invalidateReverseBlob (changed : Bool) (m : IndexManager) : IndexManager :=
  if changed && m.reverse.isNone then { m with reverseBlob := none } else m

/-- Run a program on the indexes of a class that has them. -/
def onClass (c : String) (ci : ClassIndexes) (prog : EStateM Err ClassIndexes Unit) :
    EStateM Err IndexManager Unit :=
  zoom (fun _ => ci) (setCls c) prog

/-- Fold one written entity into the indexes of its class. -/
def applyEntry (e : IndexEntry) : EStateM Err IndexManager Unit := do
  let m ← get
  match m.byCls.get? e.2.1 with
  | none => modify (invalidateStaleBlob e.2.1)
  | some ci => onClass e.2.1 ci (ClassIndexes.insert e.1 e.2.2)

/-- Fold the written entities of a commit into the indexes that are built. -/
def apply (entries : List IndexEntry) : EStateM Err IndexManager Unit := do
  modify (invalidateReverseBlob (!entries.isEmpty))
  entries.forM applyEntry

/-- Drop one deleted entity from the indexes of its class. -/
def applyDelete (m : IndexManager) (d : Nat × String) : IndexManager :=
  match m.byCls.get? d.2 with
  | none => m.invalidateStaleBlob d.2
  | some ci => m.setCls d.2 (ci.remove d.1)

/-- Drop the deleted entities of a commit from the indexes that are built. -/
def applyDeletes (deletes : List (Nat × String)) (m : IndexManager) : IndexManager :=
  deletes.foldl applyDelete m

/-- The edges a record has. -/
def edgesOf (referrer : Nat) (targets : Finset Nat) : RefEdges :=
  targets.image fun t => (t, referrer)

/-- The edges of all records of some shapes. -/
def buildReverse (b : Backend) (cids : List Nat) : RefEdges :=
  (cids.flatMap b.scanType).foldl
    (fun edges rec => edges ∪ edgesOf rec.oid (harvestRefOids rec.payload)) ∅

/-- The reverse postings, built or loaded on first use. -/
def ensureReverse (b : Backend) (cids : List Nat) (m : IndexManager) : IndexManager :=
  if m.reverse.isSome then m
  else
    match m.reverseBlob with
    | some rev =>
      -- The blob is spent, and who refers to what is derived at the first fold.
      { m with
        reverseBlob := none, reverse := some rev, reverseRefs := ∅, reverseRefsDirty := true }
    | none =>
      { m with reverse := some (buildReverse b cids), reverseRefs := buildReverse b cids }

/-- Recover what each record refers to, if it is still to be recovered. -/
def withReverseRefs (m : IndexManager) : IndexManager :=
  if m.reverseRefsDirty then
    { m with reverseRefs := m.reverse.getD ∅, reverseRefsDirty := false }
  else m

/-- Take a record out of the postings it was remembered under. -/
def dropReferrer (referrer : Nat) (acc : RefEdges × RefEdges) : RefEdges × RefEdges :=
  (acc.1.filter fun e => !(e.2 = referrer && e ∈ acc.2), acc.2.filter fun e => e.2 ≠ referrer)

/-- Fold the references of one written entity into the postings. -/
def applyRefEntry (acc : RefEdges × RefEdges) (e : RefEntry) : RefEdges × RefEdges :=
  let rest := dropReferrer e.1 acc
  (rest.1 ∪ edgesOf e.1 e.2, rest.2 ∪ edgesOf e.1 e.2)

/-- Fold the references of a commit in, if the reverse index is built. -/
def applyReverse (entries : List RefEntry) (m : IndexManager) : IndexManager :=
  match m.reverse with
  -- Not built yet: a later build reads the records of this commit.
  | none => m
  | some rev =>
    let m := m.withReverseRefs
    let folded := entries.foldl applyRefEntry (rev, m.reverseRefs)
    { m with reverse := some folded.1, reverseRefs := folded.2 }

/-- Drop the deleted records of a commit as referrers; they stay as targets. -/
def removeReverse (deleted : List Nat) (m : IndexManager) : IndexManager :=
  -- A blob of before the deletes would bring the referrers back.
  let m := m.invalidateReverseBlob (!deleted.isEmpty)
  match m.reverse with
  | none => m
  | some rev =>
    let m := m.withReverseRefs
    let folded := deleted.foldl (fun acc d => dropReferrer d acc) (rev, m.reverseRefs)
    { m with reverse := some folded.1, reverseRefs := folded.2 }

/-- The blobs a session leaves: one per class it built. -/
def dumpForCache (m : IndexManager) : Dict String IndexBlob := m.byCls.mapVal fun _ ci => ci.dump

end IndexManager

end DataCrystal
