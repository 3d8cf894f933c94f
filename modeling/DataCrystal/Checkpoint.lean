import DataCrystal.Index.Remembered
import DataCrystal.Loading
import DataCrystal.StoreReads

/-!
# The Checkpoint of a Dereference

A live instance is shared: whoever loads it first leaves it in the registry, and a
handle keeps what it was made with. So every way to an instance that starts from an
OID, a handle or a key goes through a checkpoint that judges the principal of the
call and no earlier one. It judges the committed labels, since judging staged ones
would let a principal grant itself the right to read. A denied reference is answered
with a redacted twin, a denied key like one that is absent.

The labels come from two places. For a registered instance they are read off the
memory of the index, for one that is still to be loaded off the record. The two are
the same labels.

An instance that is not committed yet has no committed labels. Only a handle leads to
it, and its live labels are judged.

## Main definitions

* `Handed`: A live instance or a redacted twin.
* `Store.loadOidDeref`: The checkpoint for an OID.
* `Store.lazyGet`, `Store.getManyItems`, `Store.getByKey`, `Store.getManyByKey`,
  `Store.blobBytes`: The reads that pass it.
* `Store.opens`: Whether a principal may read a record.
* `Store.OnRecord`: A record of a class this process has, not deleted.
* `Store.handsOut`: What a principal is handed of a record.

## Theorems

* `mayRead_committed`: The index judges by the labels of the record.
* `loadOidDeref_fenced`, `lazyGet_fenced`, `loadReadable_fenced`: What is handed out.
* `OnRecord.loadOidDeref`, `getByKey_answers`, `OnRecord.blobBytes`: That it is handed out.
* `Watched.deref_fence`: The checkpoint in every run, whoever loaded what before.
-/

namespace DataCrystal

open ClassIndexes Store

/-- What a dereference hands out: the live instance, or a twin of its class that
    shows nothing but the OID. -/
inductive Handed
  | live (o : Nat)
  | twin (c : String) (oid : Nat)
  deriving DecidableEq

/-- A lazy reference: made over a live entity, or by the engine. -/
inductive Handle
  | unloaded (oid : Nat)
  | loaded (oid : Option Nat) (o : Nat)

/-- What `get_many` takes. -/
inductive Sought
  | oid (oid : Nat)
  | ref (oid : Nat)
  | handle (h : Handle)
  | entity (o : Nat)
  | other

/-- Whether labels let a principal read. -/
def canRead (p : Principal) (l : Labels) : Bool := canReadRow p l.owner l.groups l.readFloor

namespace Store

variable (types : Types) (p : Principal)

/-- Judge an instance the registry has; nothing if the index does not know it. -/
def checkRegistered (o oid : Nat) : M (Option Handed) := do
  let s ← get
  -- The fence is off for unprotected classes and for root.
  if !s.isProtected types o || isRoot p then pure (some (.live o))
  else
    let c := (s.heap.get o).cls
    let ci ← ensureIndex types c
    match ci.committedLabels oid with
    -- An instance that the index has no labels for goes on to its record.
    | none => pure none
    | some l => pure (some (if canReadRow p l.1 l.2.1 l.2.2 then .live o else .twin c oid))

/-- Judge a record: a twin if the principal may not read it. -/
def twinIfUnreadable (rec : StoredRecord) (oid : Nat) : M (Option Handed) := do
  let c ← tiForCid types rec.cid
  let s ← get
  if !(types.info c).isProtected || isRoot p || canRead p (s.priorLabels rec) then pure none
  else pure (some (.twin c oid))

/-- Judge the instance of an OID, if there is one. -/
def checkHit (oid : Nat) : M (Option Handed) := do
  let s ← get
  match s.registry.get? oid with
  | some o => checkRegistered types p o oid
  | none => pure none

/-- Load an OID at the checkpoint. An instance the index does not know is judged by
    its record, so an inconsistency denies. -/
def loadOidDeref (oid : Nat) : M Handed := do
  let checked ← checkHit types p oid
  -- The index may have been built by the check.
  let s ← get
  match checked with
  | some h => pure h
  | none =>
    match s.backend.objects.get? oid with
    | none => throw (.danglingRef oid)
    -- What is not registered is judged by the labels of its record, before it is loaded.
    | some rec =>
      let twin ← twinIfUnreadable types p rec oid
      match twin with
      | some h => pure h
      | none =>
        let o ← loadOid types oid
        pure (.live o)

/-- Resolve the protected target a handle was made over. One that is not committed
    yet is judged by its live labels. -/
def derefCachedProtected (o oid : Nat) : M Handed := do
  let s ← get
  let e := s.heap.get o
  if s.new.contains oid then
    pure (if isRoot p || canRead p e.labels then .live o else .twin e.cls oid)
  else loadOidDeref types p oid

/-- The target of a handle, and the handle from then on. A protected target is judged
    on every call and never kept. -/
def lazyGet (h : Handle) : M (Handed × Handle) := do
  let s ← get
  match h with
  | .unloaded oid =>
    let handed ← loadOidDeref types p oid
    -- The handle keeps a target of an unprotected class only.
    let t ← get
    match handed with
    | .live o =>
      pure (handed, if t.isProtected types o then .unloaded oid else .loaded (some oid) o)
    | .twin _ _ => pure (handed, .unloaded oid)
  | .loaded _ o =>
    -- A loaded handle of a protected class asks again, by the OID its target has now.
    if s.isProtected types o then
      match (s.heap.get o).oid with
      | some oid =>
        let handed ← derefCachedProtected types p o oid
        pure (handed, h)
      -- A target that has no OID is in no store.
      | none => pure (.live o, h)
    else pure (.live o, h)

/-- The target of a handle if it is loaded; a protected one is never shown. -/
def peek (s : Store) (h : Handle) : Option Nat :=
  match h with
  | .unloaded _ => none
  | .loaded _ o => if s.isProtected types o then none else some o

/-- Resolve one item; an entity is passed through. -/
def derefItem (i : Sought) : M Handed := do
  match i with
  | .oid oid => loadOidDeref types p oid
  | .ref oid => loadOidDeref types p oid
  | .handle (.unloaded oid) => loadOidDeref types p oid
  -- A handle that holds its target goes through the handle.
  | .handle h =>
    let r ← lazyGet types p h
    pure r.1
  | .entity o => pure (.live o)
  | .other => throw .notAnEntity

/-- Resolve items of any kind. An item that is none is refused before the first one
    is resolved. -/
def getManyItems (items : List Sought) : M (List Handed) := do
  raiseIf (items.any fun i => i matches .other) .notAnEntity
  items.mapM (derefItem types p)

/-- The OID under a unique key. -/
def lookupKey (ci : ClassIndexes) (f : String) (v : Val LiveRef) : Except Err (Option Nat) :=
  (v.lookupKey.mapError Err.value).map fun key => (key.bind id).bind (ci.holder f)

/-- The instance of a key's holder; a denied one reads as absent. -/
def loadReadable (c : String) (ci : ClassIndexes) (holder : Option Nat) : M (Option Nat) := do
  match holder with
  | none => pure none
  | some oid =>
    if (types.info c).isProtected && !isRoot p && !mayRead p ci oid then pure none
    else
      let o ← loadOid types oid
      pure (some o)

/-- The instance under a unique key. -/
def getByKey (c f : String) (v : Val LiveRef) : M (Option Nat) := do
  raiseIf (!(types.info c).uniqueFields.contains f) (.notUnique f)
  let s ← get
  if (s.cidByTypename c).isNone then pure none
  else
    let ci ← ensureIndex types c
    let holder ← ofExcept (lookupKey ci f v)
    loadReadable types p c ci holder

/-- The instances under unique keys, in the order of the keys. -/
def getManyByKey (c f : String) (vs : List (Val LiveRef)) : M (List (Option Nat)) := do
  raiseIf (!(types.info c).uniqueFields.contains f) (.notUnique f)
  let s ← get
  if (s.cidByTypename c).isNone then pure (vs.map fun _ => none)
  else
    let ci ← ensureIndex types c
    let holders ← ofExcept (vs.mapM (lookupKey ci f))
    holders.mapM (loadReadable types p c ci)

/-- A blob of a protected record is fenced with the record. -/
def blobReadGate (owner : Nat) : M Unit := do
  let s ← get
  if isRoot p then pure ()
  else
    -- A registered instance is judged by the labels in the index.
    match s.registry.get? owner with
    | some o =>
      let ci ← ensureIndex types (s.heap.get o).cls
      raiseIf (!mayRead p ci owner) .readDenied
    | none =>
      -- Any other by the labels of its record, and a record that is gone denies.
      match s.backend.objects.get? owner with
      | none => throw .readDenied
      | some rec => raiseIf (!canRead p (s.priorLabels rec)) .readDenied

/-- The gate of a handle; only one of a protected record has an owner. -/
def handleGate (owner : Option Nat) : M Unit :=
  match owner with
  | some k => blobReadGate types p k
  | none => pure ()

/-- The bytes of a blob; `owner` is its record if that is protected. -/
def blobBytes (owner : Option Nat) (oid : Nat) : M (List Nat) := do
  handleGate types p owner
  let s ← get
  match s.backend.blobs.get? oid with
  | none => throw (.danglingRef oid)
  | some content => pure content

/-- Whether a principal may read a record: its class is open, or its labels are. -/
def opens (s : Store) (rec : StoredRecord) : Bool :=
  match s.typenameByCid rec.cid with
  | some c => !(types.info c).isProtected || isRoot p || canRead p (s.priorLabels rec)
  | none => false

end Store

/-- A shape has all label columns or none: all if its class was protected when it
    was written. So the labels of a record are read from it, or are the legacy ones.
    -/
def Backend.LabelShapes (b : Backend) : Prop := ∀ oid rec, b.objects.get? oid = some rec →
  (∀ f ∈ permFields, f ∈ b.fieldsOf rec.cid) ∨ ∀ f ∈ permFields, f ∉ b.fieldsOf rec.cid

namespace Store

section Labels

variable {types : Types} {p : Principal} {kind : Nat → String} {s t : Store} {ti : TypeInfo}
  {c : String} {fam : String → String → Family} {out : EncodedBatch}

theorem permFields_of_protected (hprot : ti.isProtected = true) {f : String}
    (hf : f ∈ permFields) : f ∈ ti.fieldNames := by
  rw [← TypeInfo.permSpecs_names] at hf
  rcases List.mem_map.mp hf with ⟨spec, hspec, rfl⟩
  exact List.mem_map_of_mem (mem_permSpec hprot hspec)

theorem not_permFields_of_open (hopen : ti.isProtected = false) {f : String}
    (hf : f ∈ permFields) : f ∉ ti.fieldNames := by
  intro hc
  rcases List.mem_map.mp hc with ⟨spec, hspec, rfl⟩
  rw [TypeInfo.specs, hopen] at hspec
  exact ti.not_reserved spec (by simpa using hspec) hf

theorem stored_labelShapes (h : Coherent kind t)
    (hb : BatchOk types t t.pending.entries t out) (hshapes : t.backend.LabelShapes) :
    (t.backend.apply (t.buildBatch out)).LabelShapes := by
  intro oid rec hrec
  rcases stored_record h hb hrec with ⟨hold, -, -⟩ | ⟨o, -, -, hnames, -⟩
  · have hfields : (t.backend.apply (t.buildBatch out)).fieldsOf rec.cid =
        t.backend.fieldsOf rec.cid := by
      rw [Backend.fieldsOf, Backend.find?_types_apply _ (h.storage.row hold) rfl]
      rfl
    rw [hfields]
    exact hshapes oid rec hold
  · rw [hnames]
    cases hprot : (t.info types o).isProtected with
    | true => exact Or.inl fun f hf => permFields_of_protected hprot hf
    | false => exact Or.inr fun f hf => not_permFields_of_open hprot hf

/-- The labels of a record are those in the row of the live class. -/
theorem priorLabels_eq (hs : StorageOk kind s) (hshapes : s.backend.LabelShapes)
    (hprot : ti.isProtected = true) {rec : StoredRecord}
    (hrec : s.backend.objects.get? rec.oid = some rec) :
    s.priorLabels rec = rowLabels (s.backend.rowOf ti rec) := by
  rw [priorLabels, decodeLabels, (hs.shape hrec).1]
  rcases hshapes _ _ hrec with hall | hnone
  · have hvalue : ∀ f ∈ permFields, s.backend.rowOf ti rec f =
        persistedValue (s.backend.fieldsOf rec.cid) rec.payload f := by
      intro f hf
      rw [Backend.rowOf, recordRow, if_pos (by simpa using hall f hf)]
    rw [if_pos (List.all_eq_true.mpr fun f hf => by simpa using hall f hf), rowLabels,
      hvalue _ (by decide), hvalue _ (by decide), hvalue _ (by decide), hvalue _ (by decide)]
  · have hfill : ∀ f ∈ permFields, ∀ v, legacyFill.column f = some v →
        s.backend.rowOf ti rec f = v := by
      intro f hf v hv
      rw [Backend.rowOf, recordRow, if_neg (by simpa using hnone f hf), TypeInfo.fill,
        if_pos (by simpa [hprot] using hf), hv]
      rfl
    have hsome : ¬permFields.all (s.backend.fieldsOf rec.cid).contains = true := by
      intro hc
      exact hnone "_dc_owner" (by decide)
        (by simpa using List.all_eq_true.mp hc "_dc_owner" (by decide))
    rw [if_neg hsome, rowLabels, hfill "_dc_owner" (by decide) _ rfl,
      hfill "_dc_groups" (by decide) _ rfl, hfill "_dc_read_floor" (by decide) _ rfl,
      hfill "_dc_write_floor" (by decide) _ rfl]
    simp

/-- What the checkpoint relies on of a store: its reads can be relied on, its
    indexes remember the labels of every record, and the records have label columns
    wherever the class is protected now. -/
structure Fences (fam : String → String → Family) (types : Types) (s : Store) : Prop where
  reliable : s.Reliable fam types
  brief : s.index.Brief
  shapes : s.backend.LabelShapes
  coherent : ∃ kind, Coherent kind s

theorem Fences.registersObjects (h : Fences fam types s) : RegistersObjects s := by
  rcases h.coherent with ⟨kind, hc⟩
  exact fun k n hk => hc.objects.bounded n k (hc.objects.registered k n hk)

theorem Fences.prepared (h : Fences fam types s)
    (hrun : Relation.ReflTransGen (Prepares types p) s t) : Fences fam types t := by
  rcases h.coherent with ⟨kind, hc⟩
  have hr := h.reliable
  have hb := backend_of_prepares hrun
  have hc' : Coherent kind t := reflTransGen_invariant (I := Coherent kind)
    (fun _ _ hstep => prepares_coherent hstep) hrun hc
  exact {
    reliable := {
      families := hr.families
      storage := ⟨kind, hc'.storage⟩
      tidy := prepared_tidy hrun hc hr.tidy
      inStep := prepared_inStep hrun hc hr.inStep
      indexed := prepared_indexed hr.families hrun hc hr.tidy hr.inStep hr.indexed
      filing := hb ▸ hr.filing
      labelled := hb ▸ hr.labelled
      named := hb ▸ hr.named }
    brief := prepared_lasting IndexManager.lasting_brief hrun h.brief
    shapes := hb ▸ h.shapes
    coherent := ⟨kind, hc'⟩ }

/-- A read is made of building indexes and of loads. -/
def ReadStep (types : Types) (p : Principal) (s t : Store) : Prop :=
  (∃ c, t = finalState ((Op.query c).run types p s)) ∨
    ∃ oid, t = finalState ((Op.load oid).run types p s)

theorem reads_ensureIndex (c : String) : Moves (ReadStep types p) (ensureIndex types c) :=
  fun _ => .single (Or.inl ⟨c, (finalState_effect _ _).symm⟩)

theorem reads_loadOid (oid : Nat) : Moves (ReadStep types p) (loadOid types oid) :=
  fun _ => .single (Or.inr ⟨oid, (finalState_effect _ _).symm⟩)

theorem prepared_of_reads (h : Relation.ReflTransGen (ReadStep types p) s t) :
    Relation.ReflTransGen (Prepares types p) s t := by
  have hop : ∀ (op : Op) (u : Store), op.isEdit = true →
      Relation.ReflTransGen (Prepares types p) u (finalState (op.run types p u)) :=
    fun op u hedit => Relation.ReflTransGen.mono (fun _ _ hstep => Or.inl hstep) _ _
      (moves_op types p op hedit u)
  induction h with
  | refl => exact .refl
  | tail _ hstep ih =>
      rcases hstep with ⟨c, rfl⟩ | ⟨oid, rfl⟩
      · exact ih.trans (hop (.query c) _ rfl)
      · exact ih.trans (hop (.load oid) _ rfl)

theorem Fences.read (h : Fences fam types s) (hrun : Relation.ReflTransGen (ReadStep types p) s t) :
    Fences fam types t := h.prepared (prepared_of_reads hrun)

/-- The class of a record, by the shapes in memory. -/
theorem typenameByCid_of_record (hs : StorageOk kind s) {oid : Nat} {rec : StoredRecord}
    (hrec : s.backend.objects.get? oid = some rec) :
    s.typenameByCid rec.cid = s.backend.typenameOf rec.cid := by
  rcases hs.records oid rec hrec with ⟨_, _, names, hrow⟩
  rw [typenameByCid, Backend.typenameOf, find?_row (hs.rowsKnown _ hrow) hs.rowsUnique,
    find?_row hrow hs.types_unique]

/-- The labels the index has of an OID: those of its record, or none if it has no
    record of the class. -/
theorem mayRead_committed (h : Fences fam types s)
    (hprot : (types.info c).isProtected = true) :
    ∃ ci m, ensureIndex types c s = .ok ci { s with index := m } ∧ ∀ oid,
      (∃ rec l, s.backend.RecordOf c rec ∧ rec.oid = oid ∧ ci.committedLabels oid = some l ∧
        ∀ p, canReadRow p l.1 l.2.1 l.2.2 = canRead p (s.priorLabels rec)) ∨
      (∀ rec, s.backend.RecordOf c rec → rec.oid ≠ oid) ∧ ci.committedLabels oid = none := by
  have hr := h.reliable
  rcases hr.storage with ⟨kind, hs⟩
  rcases ensureIndex_stands hr.families hs hr.tidy hr.inStep hr.indexed
    (show Watched.anyClass c from trivial) with ⟨ci, m, hensure, hstands⟩
  have hread : Relation.ReflTransGen (ReadStep types ⟨0, Dict.empty⟩) s { s with index := m } :=
    (reads_ensureIndex c s).of_ok hensure
  have hbrief : ci.Brief := (h.read hread).brief c ci (ensureIndex_ok hensure)
  -- The rows of the class show the labels of their records.
  have hlab : LabelledRows (s.backend.classRows (types.info c) c) (fun oid =>
      ((s.backend.objects.get? oid).map s.priorLabels).getD legacyFill) := by
    rw [← rowsOf_scannedRows hs hr.inStep.rows]
    refine labelledRows_of_columns hprot fun e he f v hv => ?_
    rcases (mem_scannedRows hs e).mp he with ⟨rec, hrec, rfl⟩
    simp only [hrec.1, Option.map_some, Option.getD_some] at hv
    rw [priorLabels_eq hs h.shapes hprot hrec.1] at hv
    exact rowLabels_column hr.labelled hprot hrec.1 f v hv
  refine ⟨ci, m, hensure, fun oid => ?_⟩
  have hspec := committedLabels_spec hstands.represents hbrief hprot hlab oid
  -- Without a row there is no record, and so no labels.
  cases hrow : s.backend.classRows (types.info c) c oid with
  | none =>
      refine Or.inr ⟨fun rec hrec hoid => ?_, hspec.2 hrow⟩
      subst hoid
      rw [classRows_of_record hrec.1 hrec.2] at hrow
      cases hrow
  -- With one the labels in the memory judge as those of the record.
  | some row =>
      rcases record_of_row hs (by rw [hrow]; rfl) with ⟨rec, hrec, hoid, -⟩
      rcases hspec.1 (by rw [hrow]; rfl) with ⟨groups, hgroups, hlabels⟩
      refine Or.inl ⟨rec, _, hrec, hoid, hlabels, fun p => ?_⟩
      have hget : s.backend.objects.get? oid = some rec := hoid ▸ hrec.1
      simp only [hget, Option.map_some, Option.getD_some] at hgroups ⊢
      exact canReadRow_congr hgroups

end Labels

section Fence

variable {types : Types} {p : Principal} {kind : Nat → String} {s t u : Store} {c f : String}
  {fam : String → String → Family} {oid o : Nat} {h : Handle} {r : Handed}

/-- Reads lead from `s` to `t`: the records and the buffers stay, and so does every
    instance that was there. -/
structure ReadTo (types : Types) (p : Principal) (s t : Store) : Prop where
  reads : Relation.ReflTransGen (ReadStep types p) s t
  backend : t.backend = s.backend
  typeRows : t.typeRows = s.typeRows
  new : t.new = s.new
  size : s.heap.size ≤ t.heap.size
  old : ∀ n < s.heap.size, t.heap.get n = s.heap.get n
  kept : ∀ k n, s.registry.get? k = some n → t.registry.get? k = some n

theorem readTo_refl (s : Store) : ReadTo types p s s :=
  ⟨.refl, rfl, rfl, rfl, le_rfl, fun _ _ => rfl, fun _ _ hk => hk⟩

theorem ReadTo.trans (h : ReadTo types p s t) (h' : ReadTo types p t u) : ReadTo types p s u where
  reads := h.reads.trans h'.reads
  backend := h'.backend.trans h.backend
  typeRows := h'.typeRows.trans h.typeRows
  new := h'.new.trans h.new
  size := h.size.trans h'.size
  old n hn := (h'.old n (Nat.lt_of_lt_of_le hn h.size)).trans (h.old n hn)
  kept k n hk := h'.kept k n (h.kept k n hk)

theorem readTo_ensureIndex {ci : ClassIndexes} {m : IndexManager}
    (h : ensureIndex types c s = .ok ci { s with index := m }) :
    ReadTo types p s { s with index := m } :=
  ⟨(reads_ensureIndex c s).of_ok h, rfl, rfl, rfl, le_rfl, fun _ _ => rfl, fun _ _ hk => hk⟩

theorem readTo_loadOid (hs : Fences fam types s) (h : loadOid types oid s = .ok o t) :
    ReadTo types p s t ∧ t.registry.get? oid = some o := by
  rcases loadOid_fills hs.registersObjects h with ⟨hload, hreg, -⟩
  rcases hload.frame with ⟨hp, reg, rfl⟩
  exact ⟨⟨(reads_loadOid oid s).of_ok h, rfl, rfl, rfl, hload.size, hload.old, hload.kept⟩, hreg⟩

theorem ReadTo.opens (h : ReadTo types p s t) (p' : Principal) (rec : StoredRecord) :
    t.opens types p' rec = s.opens types p' rec := by
  unfold Store.opens typenameByCid priorLabels persistedFields
  rw [h.typeRows]

theorem ReadTo.isProtected (h : ReadTo types p s t) (ho : o < s.heap.size) :
    t.isProtected types o = s.isProtected types o := by
  unfold Store.isProtected Store.info
  rw [h.old o ho]

/-- The principal is root, or there is a record under the OID that it may read. -/
def Readable (types : Types) (p : Principal) (s : Store) (oid : Nat) : Prop :=
  isRoot p = true ∨ ∃ rec, s.backend.objects.get? oid = some rec ∧ s.opens types p rec = true

/-- What is handed out for an OID: the registered instance, if it is of an open class
    or the principal may read the record, or a twin for a record it may not read. -/
def Fenced (types : Types) (p : Principal) (s : Store) (oid : Nat) : Handed → Prop
  | .live o => s.registry.get? oid = some o ∧
      (s.isProtected types o = true → Readable types p s oid)
  | .twin c k => k = oid ∧ ∃ rec, s.backend.objects.get? oid = some rec ∧
      s.typenameByCid rec.cid = some c ∧ s.opens types p rec = false

theorem Fenced.later (h : Fenced types p s oid r) (hs : RegistersObjects s)
    {p' : Principal} (hread : ReadTo types p' s t) : Fenced types p t oid r := by
  cases r with
  | live o =>
      refine ⟨hread.kept oid o h.1, fun hprot => ?_⟩
      rw [hread.isProtected (hs oid o h.1)] at hprot
      rcases h.2 hprot with hroot | ⟨rec, hrec, hopen⟩
      · exact Or.inl hroot
      · exact Or.inr ⟨rec, hread.backend ▸ hrec, (hread.opens p rec).trans hopen⟩
  | twin c k =>
      rcases h with ⟨rfl, rec, hrec, hcls, hdenied⟩
      refine ⟨rfl, rec, hread.backend ▸ hrec, ?_, (hread.opens p rec).trans hdenied⟩
      unfold typenameByCid at hcls ⊢
      rw [hread.typeRows]
      exact hcls

/-- A record of a protected class is open if its labels are. -/
theorem opens_of_record (hs : StorageOk kind s) {rec : StoredRecord}
    (hrec : s.backend.RecordOf c rec) : s.typenameByCid rec.cid = some c ∧
      s.opens types p rec =
        (!(types.info c).isProtected || isRoot p || canRead p (s.priorLabels rec)) := by
  have hcls := (typenameByCid_of_record hs hrec.1).trans hrec.2
  refine ⟨hcls, ?_⟩
  rw [opens, hcls]

/-- Judging a registered instance. -/
theorem checkRegistered_fenced (hs : Fences fam types s) (hreg : s.registry.get? oid = some o)
    {checked : Option Handed} (hrun : checkRegistered types p o oid s = .ok checked t) :
    ReadTo types p s t ∧ ∀ r, checked = some r → Fenced types p t oid r := by
  rw [checkRegistered, bind_run_ok (get_run s)] at hrun
  -- Not protected, or root: the instance is handed out.
  by_cases hopen : (!s.isProtected types o || isRoot p) = true
  · rw [if_pos hopen] at hrun
    cases hrun
    refine ⟨readTo_refl s, fun r hr => ?_⟩
    cases hr
    refine ⟨hreg, fun hprot => Or.inl ?_⟩
    simpa [hprot] using hopen
  · rw [if_neg hopen] at hrun
    rw [Bool.or_eq_true, not_or, Bool.not_eq_true', Bool.not_eq_false] at hopen
    rcases hs.coherent with ⟨kind, hc⟩
    rcases mayRead_committed hs hopen.1 with ⟨ci, m, hensure, hlabels⟩
    have hread : ReadTo types p s { s with index := m } := readTo_ensureIndex hensure
    rw [bind_run_ok hensure] at hrun
    -- The committed labels decide, whatever is staged on the instance.
    rcases hlabels oid with ⟨rec, l, hrec, rfl, hl, hjudge⟩ | ⟨-, hnone⟩
    · simp only [hl] at hrun
      cases hrun
      refine ⟨hread, fun r hr => ?_⟩
      cases hr
      have hopened : _ ∧ s.opens types p rec = _ := opens_of_record hc.storage hrec
      rcases hopened with ⟨hcls, hopens⟩
      rw [show (types.info (s.heap.get o).cls).isProtected = true from hopen.1,
        Bool.eq_false_of_not_eq_true hopen.2, Bool.not_true, Bool.false_or, Bool.false_or,
        ← hjudge p] at hopens
      split
      · rename_i hcan
        exact ⟨hreg, fun _ => Or.inr ⟨rec, hrec.1, hopens.trans hcan⟩⟩
      · rename_i hcan
        exact ⟨rfl, rec, hrec.1, hcls, hopens.trans (Bool.eq_false_of_not_eq_true hcan)⟩
    -- No committed labels: nothing is handed out.
    · simp only [hnone] at hrun
      cases hrun
      exact ⟨hread, fun r hr => absurd hr.symm (Option.some_ne_none r)⟩

theorem checkHit_fenced (hs : Fences fam types s) {checked : Option Handed}
    (hrun : checkHit types p oid s = .ok checked t) :
    ReadTo types p s t ∧ ∀ r, checked = some r → Fenced types p t oid r := by
  rw [checkHit, bind_run_ok (get_run s)] at hrun
  cases hreg : s.registry.get? oid with
  | some o =>
      simp only [hreg] at hrun
      exact checkRegistered_fenced hs hreg hrun
  | none =>
      simp only [hreg] at hrun
      cases hrun
      exact ⟨readTo_refl s, fun r hr => absurd hr.symm (Option.some_ne_none r)⟩

/-- Judging a record. -/
theorem twinIfUnreadable_fenced {rec : StoredRecord}
    (hrec : s.backend.objects.get? oid = some rec) {twin : Option Handed}
    (hrun : twinIfUnreadable types p rec oid s = .ok twin t) : t = s ∧
      (twin = none → s.opens types p rec = true) ∧
      ∀ r, twin = some r → Fenced types p s oid r := by
  rcases bind_ok_iff.mp hrun with ⟨c, s₁, hcls, hrest⟩
  rcases tiForCid_ok hcls with ⟨rfl, hname⟩
  rw [bind_run_ok (get_run s)] at hrest
  have hopens : s.opens types p rec =
      (!(types.info c).isProtected || isRoot p || canRead p (s.priorLabels rec)) := by
    rw [opens, hname]
  split at hrest
  · rename_i hopen
    cases hrest
    exact ⟨rfl, fun _ => hopens.trans hopen, fun r hr => absurd hr.symm (Option.some_ne_none r)⟩
  · rename_i hdenied
    cases hrest
    refine ⟨rfl, fun h => absurd h (Option.some_ne_none _), fun r hr => ?_⟩
    cases hr
    exact ⟨rfl, rec, hrec, hname, hopens.trans (Bool.eq_false_of_not_eq_true hdenied)⟩

/-- The checkpoint for an OID: what it hands out is fenced. -/
theorem loadOidDeref_fenced (hs : Fences fam types s)
    (hrun : loadOidDeref types p oid s = .ok r t) :
    ReadTo types p s t ∧ Fenced types p t oid r := by
  rcases bind_ok_iff.mp hrun with ⟨checked, s₁, hcheck, hrest⟩
  rcases checkHit_fenced hs hcheck with ⟨hread, hfenced⟩
  rw [bind_run_ok (get_run s₁)] at hrest
  cases checked with
  | some r' =>
      cases hrest
      exact ⟨hread, hfenced r rfl⟩
  | none =>
      cases hrec : s₁.backend.objects.get? oid with
      | none =>
          simp only [hrec] at hrest
          cases hrest
      | some rec =>
          simp only [hrec] at hrest
          rcases bind_ok_iff.mp hrest with ⟨twin, s₂, htwin, hrest⟩
          rcases twinIfUnreadable_fenced hrec htwin with ⟨rfl, hopen, hdenied⟩
          cases twin with
          | some r' =>
              cases hrest
              exact ⟨hread, hdenied r rfl⟩
          | none =>
              rcases bind_ok_iff.mp hrest with ⟨o, s₃, hload, hrest⟩
              cases hrest
              rcases readTo_loadOid (p := p) (hs.read hread.reads) hload with ⟨hread', hreg⟩
              refine ⟨hread.trans hread', hreg, fun _ => Or.inr ⟨rec, hread'.backend ▸ hrec, ?_⟩⟩
              exact (hread'.opens p rec).trans (hopen rfl)

/-- What is handed out for a handle. -/
inductive HandleFenced (types : Types) (p : Principal) (s : Store) : Handle → Handed → Prop
  | reference {oid : Nat} {r : Handed} (h : Fenced types p s oid r) :
      HandleFenced types p s (.unloaded oid) r
  /-- The handle was made over an instance of an open class. -/
  | unprotected (k : Option Nat) {o : Nat} (h : s.isProtected types o = false) :
      HandleFenced types p s (.loaded k o) (.live o)
  /-- The handle was made over an instance no store knows. -/
  | unbound (k : Option Nat) {o : Nat} (h : (s.heap.get o).oid = none) :
      HandleFenced types p s (.loaded k o) (.live o)
  | bound (k : Option Nat) {o oid : Nat} {r : Handed} (hoid : (s.heap.get o).oid = some oid)
      (h : Fenced types p s oid r) : HandleFenced types p s (.loaded k o) r
  /-- The instance is not committed yet: its live labels are judged. -/
  | uncommitted (k : Option Nat) {o oid : Nat} {r : Handed} (hoid : (s.heap.get o).oid = some oid)
      (hnew : s.new.contains oid = true)
      (hr : r = if isRoot p || canRead p (s.heap.get o).labels then .live o
        else .twin (s.heap.get o).cls oid) : HandleFenced types p s (.loaded k o) r

/-- What is handed out for an item. -/
def ItemFenced (types : Types) (p : Principal) (s : Store) : Sought → Handed → Prop
  | .oid oid, r => Fenced types p s oid r
  | .ref oid, r => Fenced types p s oid r
  | .handle h, r => HandleFenced types p s h r
  | .entity o, r => r = .live o
  | .other, _ => False

/-- What is handed out for a handle, and a protected target is not kept. -/
theorem lazyGet_fenced (hs : Fences fam types s) {h' : Handle}
    (hrun : lazyGet types p h s = .ok (r, h') t) :
    ReadTo types p s t ∧ HandleFenced types p t h r ∧
      (h' = h ∨ ∃ k o, h = .unloaded k ∧ h' = .loaded (some k) o ∧ r = .live o ∧
        t.isProtected types o = false) := by
  rw [lazyGet, bind_run_ok (get_run s)] at hrun
  -- An unloaded handle loads, and keeps what it was handed only if it is unprotected.
  cases h with
  | unloaded oid =>
      rcases bind_ok_iff.mp hrun with ⟨handed, s₁, hderef, hrest⟩
      rcases loadOidDeref_fenced hs hderef with ⟨hread, hfenced⟩
      rw [bind_run_ok (get_run s₁)] at hrest
      cases handed with
      | twin c k =>
          cases hrest
          exact ⟨hread, .reference hfenced, Or.inl rfl⟩
      | live o =>
          cases hrest
          refine ⟨hread, .reference hfenced, ?_⟩
          cases hprot : t.isProtected types o with
          | true => exact Or.inl rfl
          | false => exact Or.inr ⟨oid, o, rfl, rfl, rfl, hprot⟩
  -- A loaded one gives its instance, unless the class is protected: then the fence is asked anew,
  -- by the OID of the instance.
  | loaded k o =>
      dsimp only at hrun
      cases hprot : s.isProtected types o with
      | false =>
          rw [hprot] at hrun
          cases hrun
          exact ⟨readTo_refl s, .unprotected k hprot, Or.inl rfl⟩
      | true =>
          rw [hprot, if_pos rfl] at hrun
          cases hoid : (s.heap.get o).oid with
          | none =>
              simp only [hoid] at hrun
              cases hrun
              exact ⟨readTo_refl s, .unbound k hoid, Or.inl rfl⟩
          | some oid =>
              simp only [hoid] at hrun
              rcases bind_ok_iff.mp hrun with ⟨handed, s₁, hderef, hrest⟩
              cases hrest
              rw [derefCachedProtected, bind_run_ok (get_run s)] at hderef
              -- An instance this store has made and not committed is its own.
              by_cases hnew : s.new.contains oid = true
              · simp only [hnew, if_true] at hderef
                cases hderef
                exact ⟨readTo_refl s, .uncommitted k hoid hnew rfl, Or.inl rfl⟩
              · simp only [hnew, Bool.false_eq_true, if_false] at hderef
                rcases loadOidDeref_fenced hs hderef with ⟨hread, hfenced⟩
                rcases hs.coherent with ⟨kind, hc⟩
                have hlive : (t.heap.get o).oid = some oid := by
                  rw [hread.old o (hc.objects.bounded o oid hoid)]
                  exact hoid
                exact ⟨hread, .bound k hlive hfenced, Or.inl rfl⟩

theorem peek_open (hpeek : s.peek types h = some o) : s.isProtected types o = false := by
  cases h with
  | unloaded k => cases hpeek
  | loaded k n =>
      rw [peek] at hpeek
      split at hpeek
      · cases hpeek
      · rename_i hopen
        exact Option.some.inj hpeek ▸ Bool.eq_false_of_not_eq_true hopen

/-- An item is resolved at the checkpoint. -/
theorem derefItem_fenced (hs : Fences fam types s) {i : Sought}
    (hrun : derefItem types p i s = .ok r t) :
    ReadTo types p s t ∧ ItemFenced types p t i r := by
  cases i with
  | oid oid => exact loadOidDeref_fenced hs hrun
  | ref oid => exact loadOidDeref_fenced hs hrun
  | entity o =>
      cases hrun
      exact ⟨readTo_refl s, rfl⟩
  | other => cases hrun
  | handle h =>
      cases h with
      | unloaded oid =>
          rcases loadOidDeref_fenced hs hrun with ⟨hread, hfenced⟩
          exact ⟨hread, .reference hfenced⟩
      | loaded k o =>
          rcases bind_ok_iff.mp hrun with ⟨⟨r', h'⟩, s₁, hlazy, hrest⟩
          cases hrest
          rcases lazyGet_fenced hs hlazy with ⟨hread, hfenced, -⟩
          exact ⟨hread, hfenced⟩

/-- A handle is over an object. -/
def HandleOf (s : Store) : Handle → Prop
  | .unloaded _ => True
  | .loaded _ o => o < s.heap.size

/-- A handle among the items is over an object. -/
def ItemOf (s : Store) : Sought → Prop
  | .handle h => HandleOf s h
  | _ => True

/-- What was handed out stays so while reads go on, also for other principals. -/
theorem HandleFenced.later (hf : HandleFenced types p s h r) (hs : Fences fam types s)
    (hof : HandleOf s h) {p' : Principal} (hread : ReadTo types p' s t) :
    HandleFenced types p t h r := by
  rcases hs.coherent with ⟨kind, hc⟩
  cases hf with
  | reference hr => exact .reference (hr.later hs.registersObjects hread)
  | unprotected k hopen => exact .unprotected k ((hread.isProtected hof).trans hopen)
  | unbound k hoid => exact .unbound k (by rw [hread.old _ hof]; exact hoid)
  | bound k hoid hr =>
      refine .bound k ?_ (hr.later hs.registersObjects hread)
      rw [hread.old _ (hc.objects.bounded _ _ hoid)]
      exact hoid
  | uncommitted k hoid hnew hr =>
      have hold := hread.old _ (hc.objects.bounded _ _ hoid)
      refine .uncommitted k ?_ (hread.new ▸ hnew) ?_
      · rw [hold]
        exact hoid
      · rw [hold]
        exact hr

theorem ItemFenced.later {i : Sought} (hf : ItemFenced types p s i r) (hs : Fences fam types s)
    (hof : ItemOf s i) {p' : Principal} (hread : ReadTo types p' s t) :
    ItemFenced types p t i r := by
  cases i with
  | oid oid => exact Fenced.later hf hs.registersObjects hread
  | ref oid => exact Fenced.later hf hs.registersObjects hread
  | handle h => exact HandleFenced.later hf hs hof hread
  | entity o => exact hf
  | other => exact hf

theorem ItemOf.later {i : Sought} (hof : ItemOf s i) (hread : ReadTo types p s t) :
    ItemOf t i := by
  cases i with
  | handle h =>
      cases h with
      | unloaded oid => trivial
      | loaded k o => exact Nat.lt_of_lt_of_le hof hread.size
  | _ => trivial

/-- One item after the other. -/
theorem derefItems_fenced : ∀ (items : List Sought) {s t : Store} {rs : List Handed},
    Fences fam types s → (∀ i ∈ items, ItemOf s i) →
    items.mapM (derefItem types p) s = .ok rs t →
    ReadTo types p s t ∧ List.Forall₂ (ItemFenced types p t) items rs
  | [], s, t, rs, _, _, hrun => by
      cases hrun
      exact ⟨readTo_refl s, .nil⟩
  | i :: items, s, t, rs, hs, hof, hrun => by
      rw [List.mapM_cons] at hrun
      rcases bind_ok_iff.mp hrun with ⟨r, s₁, hone, hrest⟩
      rcases bind_ok_iff.mp hrest with ⟨rs', s₂, hmany, hret⟩
      cases hret
      rcases derefItem_fenced hs hone with ⟨hread, hfenced⟩
      have hs₁ := hs.read hread.reads
      rcases derefItems_fenced items hs₁
        (fun i' hi' => (hof i' (List.mem_cons_of_mem i hi')).later hread) hmany with ⟨hread', hall⟩
      have hi := (hof i List.mem_cons_self).later hread
      exact ⟨hread.trans hread', .cons (hfenced.later hs₁ hi hread') hall⟩

/-- The record holds a unique key of its class. -/
def Keyed (types : Types) (s : Store) (c f : String) (v : Val LiveRef) (rec : StoredRecord) : Prop :=
  s.backend.RecordOf c rec ∧ ∃ k, v.lookupKey = .ok (some (some k)) ∧
    some k ∈ rowKeys (types.info c) (s.backend.rowOf (types.info c) rec) f

/-- What is handed out for a key: the instance of the record that holds it and that the
    principal may read, or nothing if there is none. -/
def KeyFenced (types : Types) (p : Principal) (s : Store) (c f : String) (v : Val LiveRef) :
    Option Nat → Prop
  | some o => ∃ rec, Keyed types s c f v rec ∧ s.registry.get? rec.oid = some o ∧
      s.opens types p rec = true
  | none => ∀ rec, Keyed types s c f v rec → s.opens types p rec = false

/-- An index knows the keys of the records of its class, and their labels. So a
    lookup by key finds the record that holds it, and the memory of the index judges
    a reader as the record itself would. -/
structure Judges (types : Types) (s : Store) (c : String) (ci : ClassIndexes) : Prop where
  keys : ∀ f ∈ (types.info c).uniqueFields, ∀ k oid, ci.holder f k = some oid ↔
    ∃ rec, s.backend.RecordOf c rec ∧ rec.oid = oid ∧
      some k ∈ rowKeys (types.info c) (s.backend.rowOf (types.info c) rec) f
  labels : (types.info c).isProtected = true → ∀ p oid, mayRead p ci oid = true ↔
    ∃ rec, s.backend.RecordOf c rec ∧ rec.oid = oid ∧ canRead p (s.priorLabels rec) = true

theorem Judges.mayRead_eq {ci : ClassIndexes} (hj : Judges types s c ci)
    (hprot : (types.info c).isProtected = true) {rec : StoredRecord}
    (hrec : s.backend.RecordOf c rec) : mayRead p ci rec.oid = canRead p (s.priorLabels rec) := by
  rw [Bool.eq_iff_iff, hj.labels hprot p rec.oid]
  refine ⟨?_, fun hcan => ⟨rec, hrec, rfl, hcan⟩⟩
  rintro ⟨rec', hrec', hoid, hcan⟩
  have hget := hrec'.1
  rw [hoid, hrec.1] at hget
  rw [Option.some.inj hget]
  exact hcan

theorem ensureIndex_judges (hs : Fences fam types s) (c : String) :
    ∃ ci m, ensureIndex types c s = .ok ci { s with index := m } ∧ Judges types s c ci := by
  have hr := hs.reliable
  rcases hr.storage with ⟨kind, hok⟩
  rcases ensureIndex_stands hr.families hok hr.tidy hr.inStep hr.indexed
    (show Watched.anyClass c from trivial) with ⟨ci, m, hensure, hstands⟩
  refine ⟨ci, m, hensure, fun f hf k oid => ⟨fun hk => ?_, ?_⟩, fun hprot p oid => ?_⟩
  -- A posting is of a row, and the row of a record.
  · have hmem := hstands.represents.holds f hf k oid hk
    cases hrow : s.backend.classRows (types.info c) c oid with
    | none =>
        rw [hrow] at hmem
        exact absurd hmem List.not_mem_nil
    | some row =>
        rcases record_of_row hok (by rw [hrow]; rfl) with ⟨rec, hrec, hoid, hkeys⟩
        rw [hkeys, recalled_some] at hmem
        exact ⟨rec, hrec, hoid, hmem⟩
  · rintro ⟨rec, hrec, rfl, hmem⟩
    refine hstands.represents.held f hf k rec.oid ?_ id
    rw [classRows_of_record hrec.1 hrec.2, recalled_some]
    exact hmem
  -- The index was built already, so both looks at it are one.
  · rcases mayRead_committed hs hprot with ⟨ci', m', hensure', hlabels⟩
    rw [hensure] at hensure'
    cases hensure'
    rcases hlabels oid with ⟨rec, l, hrec, hoid, hl, hjudge⟩ | ⟨hno, hnone⟩
    · rw [mayRead, hl]
      refine ⟨fun hcan => ⟨rec, hrec, hoid, (hjudge p).symm.trans hcan⟩, ?_⟩
      rintro ⟨rec', hrec', hoid', hcan⟩
      have hget := hrec'.1
      rw [hoid', ← hoid, hrec.1] at hget
      rw [← Option.some.inj hget] at hcan
      exact (hjudge p).trans hcan
    · rw [mayRead, hnone]
      refine ⟨fun hcan => absurd hcan Bool.false_ne_true, ?_⟩
      rintro ⟨rec, hrec, hoid, -⟩
      exact absurd hoid (hno rec hrec)

theorem Judges.later {ci : ClassIndexes} (hj : Judges types s c ci) (hread : ReadTo types p s t) :
    Judges types t c ci := by
  refine ⟨?_, ?_⟩
  · rw [hread.backend]
    exact hj.keys
  · unfold priorLabels persistedFields
    rw [hread.typeRows, hread.backend]
    exact hj.labels

theorem KeyFenced.later {v : Val LiveRef} {found : Option Nat}
    (hf : KeyFenced types p s c f v found) {p' : Principal} (hread : ReadTo types p' s t) :
    KeyFenced types p t c f v found := by
  have hkeyed : ∀ rec, Keyed types t c f v rec ↔ Keyed types s c f v rec := by
    intro rec
    unfold Keyed
    rw [hread.backend]
  cases found with
  | none => exact fun rec hrec => (hread.opens p rec).trans (hf rec ((hkeyed rec).mp hrec))
  | some o =>
      rcases hf with ⟨rec, hrec, hreg, hopen⟩
      exact ⟨rec, (hkeyed rec).mpr hrec, hread.kept _ _ hreg, (hread.opens p rec).trans hopen⟩

/-- The OID an index has under a key is that of the record with the key. -/
theorem lookupKey_keyed {ci : ClassIndexes} (hj : Judges types s c ci)
    (hf : f ∈ (types.info c).uniqueFields) {v : Val LiveRef} {holder : Option Nat}
    (hlook : lookupKey ci f v = .ok holder) (oid : Nat) :
    holder = some oid ↔ ∃ rec, Keyed types s c f v rec ∧ rec.oid = oid := by
  unfold lookupKey at hlook
  cases hv : v.lookupKey with
  | error e =>
      rw [hv] at hlook
      cases hlook
  | ok key =>
      rw [hv] at hlook
      have hholder : (key.bind id).bind (ci.holder f) = holder := Except.ok.inj hlook
      have hkeyed : ∀ rec, Keyed types s c f v rec ↔ s.backend.RecordOf c rec ∧
          ∃ k, key = some (some k) ∧
            some k ∈ rowKeys (types.info c) (s.backend.rowOf (types.info c) rec) f := by
        intro rec
        rw [Keyed, hv]
        simp only [Except.ok.injEq]
      rw [← hholder]
      constructor
      · intro hsome
        rcases Option.bind_eq_some_iff.mp hsome with ⟨k, hk, hget⟩
        rcases Option.bind_eq_some_iff.mp hk with ⟨k', rfl, hk'⟩
        cases hk'
        rcases (hj.keys f hf k oid).mp hget with ⟨rec, hrec, hoid, hmem⟩
        exact ⟨rec, (hkeyed rec).mpr ⟨hrec, k, rfl, hmem⟩, hoid⟩
      · rintro ⟨rec, hrec, hoid⟩
        rcases (hkeyed rec).mp hrec with ⟨hof, k, rfl, hmem⟩
        exact (hj.keys f hf k oid).mpr ⟨rec, hof, hoid, hmem⟩

/-- The instance of a key's holder is handed out to who may read its record. -/
theorem loadReadable_fenced (hs : Fences fam types s) {ci : ClassIndexes}
    (hj : Judges types s c ci) (hf : f ∈ (types.info c).uniqueFields) {v : Val LiveRef}
    {holder found : Option Nat} (hlook : lookupKey ci f v = .ok holder)
    (hrun : loadReadable types p c ci holder s = .ok found t) :
    ReadTo types p s t ∧ KeyFenced types p t c f v found := by
  have hholder := lookupKey_keyed hj hf hlook
  rcases hs.coherent with ⟨kind, hc⟩
  cases holder with
  | none =>
      cases hrun
      refine ⟨readTo_refl s, fun rec hrec => ?_⟩
      exact absurd ((hholder rec.oid).mpr ⟨rec, hrec, rfl⟩).symm (Option.some_ne_none _)
  | some oid =>
      rcases (hholder oid).mp rfl with ⟨rec, hrec, rfl⟩
      have hopened : _ ∧ s.opens types p rec = _ := opens_of_record hc.storage hrec.1
      rcases hopened with ⟨-, hopens⟩
      -- What the index says about the labels is what the record opens by.
      have hdeny : ((types.info c).isProtected && !isRoot p && !mayRead p ci rec.oid) =
          !s.opens types p rec := by
        rw [hopens]
        cases hprot : (types.info c).isProtected with
        | false => rfl
        | true =>
            rw [hj.mayRead_eq hprot hrec.1]
            cases isRoot p <;> cases canRead p (s.priorLabels rec) <;> rfl
      rw [loadReadable, hdeny] at hrun
      cases hopen : s.opens types p rec with
      | false =>
          rw [hopen] at hrun
          cases hrun
          refine ⟨readTo_refl s, fun rec' hrec' => ?_⟩
          have hoid := (hholder rec'.oid).mpr ⟨rec', hrec', rfl⟩
          have hget := hrec'.1.1
          rw [← Option.some.inj hoid, hrec.1.1] at hget
          rw [← Option.some.inj hget]
          exact hopen
      | true =>
          rw [hopen] at hrun
          rcases bind_ok_iff.mp hrun with ⟨o, s₁, hload, hret⟩
          cases hret
          rcases readTo_loadOid (p := p) hs hload with ⟨hread, hreg⟩
          refine ⟨hread, rec, ?_, hreg, (hread.opens p rec).trans hopen⟩
          unfold Keyed at hrec ⊢
          rw [hread.backend]
          exact hrec

/-- A class that was never seen has no record. -/
theorem no_record_of_unseen (hs : StorageOk kind s) (hseen : (s.cidByTypename c).isNone = true)
    {rec : StoredRecord} (hrec : s.backend.RecordOf c rec) : False := by
  have hrow := hs.rowsKnown _ (hs.row hrec.1)
  have hcls := hrec.2
  rw [(hs.shape hrec.1).2, Option.some.injEq] at hcls
  rw [hcls] at hrow
  rw [Option.isNone_iff_eq_none, cidByTypename, Option.map_eq_none_iff,
    List.find?_eq_none] at hseen
  exact hseen _ (List.mem_reverse.mpr hrow) (decide_eq_true rfl)

theorem getByKey_fenced (hs : Fences fam types s) {v : Val LiveRef} {found : Option Nat}
    (hrun : getByKey types p c f v s = .ok found t) :
    ReadTo types p s t ∧ KeyFenced types p t c f v found := by
  rcases bind_ok_iff.mp hrun with ⟨_, s₁, hunique, hrest⟩
  rcases raiseIf_ok_iff.mp hunique with ⟨hf, rfl⟩
  have hfield : f ∈ (types.info c).uniqueFields := by simpa using hf
  rw [bind_run_ok (get_run s₁)] at hrest
  rcases hs.coherent with ⟨kind, hc⟩
  by_cases hseen : (s₁.cidByTypename c).isNone = true
  · rw [if_pos hseen] at hrest
    cases hrest
    exact ⟨readTo_refl _, fun rec hrec =>
      (no_record_of_unseen hc.storage hseen hrec.1).elim⟩
  · rw [if_neg hseen] at hrest
    rcases ensureIndex_judges hs c with ⟨ci, m, hensure, hj⟩
    rw [bind_run_ok hensure] at hrest
    rcases bind_ok_iff.mp hrest with ⟨holder, s₂, hlook, hload⟩
    rcases ofExcept_ok_iff.mp hlook with ⟨hkey, rfl⟩
    have hread : ReadTo types p s₁ { s₁ with index := m } := readTo_ensureIndex hensure
    rcases loadReadable_fenced (hs.read hread.reads) (hj.later hread) hfield hkey hload with
      ⟨hread', hfenced⟩
    exact ⟨hread.trans hread', hfenced⟩

/-- The keys of a list, one after the other. -/
theorem loadReadables_fenced {ci : ClassIndexes} (hf : f ∈ (types.info c).uniqueFields) :
    ∀ {vs : List (Val LiveRef)} {holders : List (Option Nat)},
    List.Forall₂ (fun v holder => lookupKey ci f v = .ok holder) vs holders →
    ∀ {s t : Store} {found : List (Option Nat)}, Fences fam types s → Judges types s c ci →
    holders.mapM (loadReadable types p c ci) s = .ok found t →
    ReadTo types p s t ∧ List.Forall₂ (KeyFenced types p t c f) vs found
  | [], _, .nil, s, t, found, _, _, hrun => by
      cases hrun
      exact ⟨readTo_refl s, .nil⟩
  | v :: vs, _, .cons hlook hlooks, s, t, found, hs, hj, hrun => by
      rw [List.mapM_cons] at hrun
      rcases bind_ok_iff.mp hrun with ⟨o, s₁, hone, hrest⟩
      rcases bind_ok_iff.mp hrest with ⟨os, s₂, hmany, hret⟩
      cases hret
      rcases loadReadable_fenced hs hj hf hlook hone with ⟨hread, hfenced⟩
      rcases loadReadables_fenced hf hlooks (hs.read hread.reads) (hj.later hread) hmany with
        ⟨hread', hall⟩
      exact ⟨hread.trans hread', .cons (hfenced.later hread') hall⟩

theorem getManyByKey_fenced (hs : Fences fam types s) {vs : List (Val LiveRef)}
    {found : List (Option Nat)} (hrun : getManyByKey types p c f vs s = .ok found t) :
    ReadTo types p s t ∧ List.Forall₂ (KeyFenced types p t c f) vs found := by
  rcases bind_ok_iff.mp hrun with ⟨_, s₁, hunique, hrest⟩
  rcases raiseIf_ok_iff.mp hunique with ⟨hf, rfl⟩
  have hfield : f ∈ (types.info c).uniqueFields := by simpa using hf
  rw [bind_run_ok (get_run s₁)] at hrest
  rcases hs.coherent with ⟨kind, hc⟩
  by_cases hseen : (s₁.cidByTypename c).isNone = true
  · rw [if_pos hseen] at hrest
    cases hrest
    refine ⟨readTo_refl _, List.forall₂_map_right_iff.mpr (List.forall₂_same.mpr fun v _ => ?_)⟩
    exact fun rec hrec => (no_record_of_unseen hc.storage hseen hrec.1).elim
  · rw [if_neg hseen] at hrest
    rcases ensureIndex_judges hs c with ⟨ci, m, hensure, hj⟩
    rw [bind_run_ok hensure] at hrest
    rcases bind_ok_iff.mp hrest with ⟨holders, s₂, hlooks, hload⟩
    rcases ofExcept_ok_iff.mp hlooks with ⟨hkeys, rfl⟩
    have hread : ReadTo types p s₁ { s₁ with index := m } := readTo_ensureIndex hensure
    rcases loadReadables_fenced hfield ((except_mapM_ok_iff vs holders).mp hkeys)
      (hs.read hread.reads) (hj.later hread) hload with ⟨hread', hfenced⟩
    exact ⟨hread.trans hread', hfenced⟩

/-- Who passes the gate of a record may read it. -/
theorem blobReadGate_fenced (hs : Fences fam types s) {k : Nat} {x : Unit}
    (hrun : blobReadGate types p k s = .ok x t) : ReadTo types p s t ∧
      (Readable types p t k ∨ ∃ o, t.registry.get? k = some o ∧ t.isProtected types o = false) := by
  rcases hs.coherent with ⟨kind, hc⟩
  rw [blobReadGate, bind_run_ok (get_run s)] at hrun
  -- Root passes before anything is read.
  by_cases hroot : isRoot p = true
  · rw [if_pos hroot] at hrun
    cases hrun
    exact ⟨readTo_refl s, Or.inl (Or.inl hroot)⟩
  · rw [if_neg hroot] at hrun
    cases hreg : s.registry.get? k with
    | some o =>
        simp only [hreg] at hrun
        rcases ensureIndex_judges hs (s.heap.get o).cls with ⟨ci, m, hensure, hj⟩
        rw [bind_run_ok hensure] at hrun
        rcases raiseIf_ok_iff.mp hrun with ⟨hmay, rfl⟩
        have hread : ReadTo types p s { s with index := m } := readTo_ensureIndex hensure
        refine ⟨hread, ?_⟩
        cases hprot : (types.info (s.heap.get o).cls).isProtected with
        | false => exact Or.inr ⟨o, hreg, hprot⟩
        | true =>
            rcases (hj.labels hprot p k).mp (by simpa using hmay) with ⟨rec, hrec, rfl, hcan⟩
            have hopened : _ ∧ s.opens types p rec = _ := opens_of_record hc.storage hrec
            rcases hopened with ⟨-, hopens⟩
            refine Or.inl (Or.inr ⟨rec, hrec.1, (hread.opens p rec).trans ?_⟩)
            rw [hopens, hcan, Bool.or_true]
    | none =>
        simp only [hreg] at hrun
        cases hrec : s.backend.objects.get? k with
        | none =>
            simp only [hrec] at hrun
            cases hrun
        | some rec =>
            simp only [hrec] at hrun
            rcases raiseIf_ok_iff.mp hrun with ⟨hcan, rfl⟩
            have hcls := (hc.storage.shape hrec).2
            rw [← typenameByCid_of_record hc.storage hrec] at hcls
            refine ⟨readTo_refl _, Or.inl (Or.inr ⟨rec, hrec, ?_⟩)⟩
            rw [opens, hcls]
            simpa using Or.inr hcan

/-- The bytes of a blob of a protected record go to who may read the record. -/
theorem blobBytes_fenced (hs : Fences fam types s) {owner : Option Nat} {content : List Nat}
    (hrun : blobBytes types p owner oid s = .ok content t) :
    ReadTo types p s t ∧ t.backend.blobs.get? oid = some content ∧
      ∀ k, owner = some k → Readable types p t k ∨
        ∃ o, t.registry.get? k = some o ∧ t.isProtected types o = false := by
  rcases bind_ok_iff.mp hrun with ⟨x, s₁, hgate, hrest⟩
  have hpass : ReadTo types p s s₁ ∧ ∀ k, owner = some k → Readable types p s₁ k ∨
      ∃ o, s₁.registry.get? k = some o ∧ s₁.isProtected types o = false := by
    cases owner with
    | none =>
        cases hgate
        exact ⟨readTo_refl s, fun k hk => absurd hk.symm (Option.some_ne_none k)⟩
    | some k =>
        rcases blobReadGate_fenced hs hgate with ⟨hread, hopen⟩
        refine ⟨hread, fun k' hk' => ?_⟩
        cases hk'
        exact hopen
  rcases hpass with ⟨hread, hopen⟩
  rw [bind_run_ok (get_run s₁)] at hrest
  cases hblob : s₁.backend.blobs.get? oid with
  | none =>
      simp only [hblob] at hrest
      cases hrest
  | some content' =>
      simp only [hblob] at hrest
      cases hrest
      exact ⟨hread, hblob, hopen⟩

end Fence

section Answers

variable {types : Types} {p : Principal} {kind : Nat → String} {s : Store} {c f : String}
  {fam : String → String → Family} {oid : Nat} {rec : StoredRecord}

/-- A record of a class this process has, whose live instance, if there is one, is not
    deleted. -/
structure OnRecord (types : Types) (s : Store) (oid : Nat) (c : String) (rec : StoredRecord) :
    Prop where
  record : s.backend.objects.get? oid = some rec
  cls : s.typenameByCid rec.cid = some c
  declared : types.declares c = true
  kept : ∀ o, s.registry.get? oid = some o → (s.heap.get o).state ≠ .deleted

theorem OnRecord.recordOf (h : OnRecord types s oid c rec) (hs : StorageOk kind s) :
    s.backend.RecordOf c rec ∧ rec.oid = oid := by
  have hoid := (hs.records oid rec h.record).1
  refine ⟨⟨hoid ▸ h.record, ?_⟩, hoid⟩
  rw [← typenameByCid_of_record hs h.record]
  exact h.cls

/-- An instance that is not deleted is of the class of its record. -/
theorem OnRecord.instance_cls (h : OnRecord types s oid c rec) (hc : Coherent kind s) {o : Nat}
    (hreg : s.registry.get? oid = some o) : (s.heap.get o).cls = c := by
  have hoid := hc.objects.registered oid o hreg
  rcases hc.storage.records oid rec h.record with ⟨-, hbelow, names, hrow⟩
  have hcls : c = kind oid := by
    have hname := typenameByCid_of_record hc.storage h.record
    rw [h.cls, Backend.typenameOf, find?_row hrow hc.storage.types_unique] at hname
    exact Option.some.inj hname
  have hknown : Known kind s (s.heap.get o).cls oid → (s.heap.get o).cls = c :=
    fun hknown => hknown.2.trans hcls.symm
  cases hstate : (s.heap.get o).state with
  | clean => exact hknown (hc.objects.settled o oid (Or.inl hstate) hoid)
  | dirty => exact hknown (hc.objects.settled o oid (Or.inr hstate) hoid)
  | deleted => exact absurd hstate (h.kept o hreg)
  | new =>
      -- The OID of a new instance has no record yet.
      have hnew := hc.objects.isNew oid o (hc.objects.newOf o oid hstate hoid).1
      omega

theorem OnRecord.opens_eq (h : OnRecord types s oid c rec) : s.opens types p rec =
    (!(types.info c).isProtected || isRoot p || canRead p (s.priorLabels rec)) := by
  rw [opens, h.cls]

/-- Judging the record answers: it lets the principal pass, or makes a twin. -/
theorem OnRecord.twinIfUnreadable (h : OnRecord types s oid c rec) :
    Store.twinIfUnreadable types p rec oid s =
      .ok (if s.opens types p rec then none else some (.twin c oid)) s := by
  have hcls : tiForCid types rec.cid s = .ok c s := by
    rw [tiForCid, bind_run_ok (get_run s), h.cls]
    dsimp only
    rw [if_pos h.declared]
    rfl
  rw [Store.twinIfUnreadable, bind_run_ok hcls, bind_run_ok (get_run s), ← h.opens_eq]
  cases s.opens types p rec <;> rfl

/-- What a principal is handed of a record at the checkpoint: what a load of the record
    gives, or a twin. -/
def handsOut (types : Types) (p : Principal) (s : Store) (oid : Nat) (c : String)
    (rec : StoredRecord) : M Handed :=
  if s.opens types p rec then loadOid types oid >>= fun o => pure (.live o)
  else pure (.twin c oid)

/-- Judging a registered instance answers: by the labels the index has of the record, which
    are those of the record. -/
theorem OnRecord.checkRegistered (h : OnRecord types s oid c rec) (hs : Fences fam types s) {o : Nat}
    (hreg : s.registry.get? oid = some o) :
    ∃ m, Store.checkRegistered types p o oid s =
      .ok (some (if s.opens types p rec then .live o else .twin c oid)) { s with index := m } := by
  rcases hs.coherent with ⟨kind, hc⟩
  have hcls := h.instance_cls hc hreg
  have hprot : s.isProtected types o = (types.info c).isProtected := by
    rw [← hcls]
    rfl
  rw [Store.checkRegistered, bind_run_ok (get_run s), hprot]
  by_cases hopen : (!(types.info c).isProtected || isRoot p) = true
  · have hopens : s.opens types p rec = true := by
      rw [h.opens_eq, hopen]
      rfl
    rw [if_pos hopen, hopens]
    exact ⟨s.index, rfl⟩
  · rw [if_neg hopen]
    have hopen' := hopen
    rw [Bool.or_eq_true, not_or, Bool.not_eq_true', Bool.not_eq_false] at hopen'
    rcases mayRead_committed hs hopen'.1 with ⟨ci, m, hensure, hlabels⟩
    rcases h.recordOf hc.storage with ⟨hrec, hoid⟩
    rcases hlabels oid with ⟨rec', l, hrec', hoid', hl, hjudge⟩ | ⟨hno, -⟩
    · have hsame : rec' = rec := by
        have hget := hrec'.1
        rw [hoid', h.record] at hget
        exact (Option.some.inj hget).symm
      have hopens : s.opens types p rec = canReadRow p l.1 l.2.1 l.2.2 := by
        rw [h.opens_eq, Bool.eq_false_of_not_eq_true hopen, Bool.false_or, hjudge p, hsame]
      refine ⟨m, ?_⟩
      rw [hcls, bind_run_ok hensure]
      simp only [hl, hopens]
      rfl
    · exact absurd hoid (hno rec hrec)

/-- The checkpoint for an OID answers for every record: a principal that may read it is handed
    its instance, as a load makes it, and any other a twin. -/
theorem OnRecord.loadOidDeref (h : OnRecord types s oid c rec) (hs : Fences fam types s) :
    ∃ m, Store.loadOidDeref types p oid s = handsOut types p s oid c rec { s with index := m } := by
  unfold handsOut
  cases hreg : s.registry.get? oid with
  | some o =>
      rcases h.checkRegistered (p := p) hs hreg with ⟨m, hcheck⟩
      have hhit : checkHit types p oid s = .ok
          (some (if s.opens types p rec then .live o else .twin c oid)) { s with index := m } := by
        rw [checkHit, bind_run_ok (get_run s), hreg]
        exact hcheck
      have hload : loadOid types oid { s with index := m } = .ok o { s with index := m } := by
        rw [loadOid, bind_run_ok (get_run _)]
        dsimp only
        rw [hreg]
        rfl
      refine ⟨m, ?_⟩
      rw [Store.loadOidDeref, bind_run_ok hhit]
      cases s.opens types p rec with
      | true =>
          change _ = (loadOid types oid >>= fun o => pure (Handed.live o)) { s with index := m }
          rw [bind_run_ok hload]
          rfl
      | false => rfl
  | none =>
      have hhit : checkHit types p oid s = .ok none s := by
        rw [checkHit, bind_run_ok (get_run s), hreg]
        rfl
      refine ⟨s.index, ?_⟩
      rw [Store.loadOidDeref, bind_run_ok hhit, bind_run_ok (get_run s), h.record]
      dsimp only
      rw [bind_run_ok h.twinIfUnreadable]
      cases s.opens types p rec <;> rfl

/-- The item leads to an OID at the checkpoint: as such, as a reference, or as a handle that
    is not loaded or whose target is protected and committed. -/
def LeadsTo (types : Types) (s : Store) (oid : Nat) : Sought → Prop
  | .oid k => k = oid
  | .ref k => k = oid
  | .handle (.unloaded k) => k = oid
  | .handle (.loaded _ o) => s.isProtected types o = true ∧ (s.heap.get o).oid = some oid ∧
      s.new.contains oid = false
  | _ => False

theorem derefItem_eq {i : Sought} (h : LeadsTo types s oid i) :
    derefItem types p i s = Store.loadOidDeref types p oid s := by
  cases i with
  | oid k =>
      cases h
      rfl
  | ref k =>
      cases h
      rfl
  | entity o => exact absurd h id
  | other => exact absurd h id
  | handle hd =>
      cases hd with
      | unloaded k =>
          cases h
          rfl
      | loaded k o =>
          have hcached : derefCachedProtected types p o oid s =
              Store.loadOidDeref types p oid s := by
            rw [derefCachedProtected, bind_run_ok (get_run s), h.2.2]
            rfl
          change (lazyGet types p (.loaded k o) >>= fun r => pure r.1) s = _
          rw [bind_run, lazyGet, bind_run_ok (get_run s)]
          dsimp only
          rw [h.1, if_pos rfl, h.2.1]
          dsimp only
          rw [bind_run, hcached]
          cases Store.loadOidDeref types p oid s <;> rfl

/-- A handle among the items is resolved as it resolves itself. -/
theorem lazyGet_eq (h : Handle) :
    (Prod.fst <$> lazyGet types p h) s = derefItem types p (.handle h) s := by
  cases h with
  | loaded k o =>
      rw [map_eq_pure_bind]
      rfl
  | unloaded k =>
      rw [map_eq_pure_bind, bind_run, lazyGet, bind_run_ok (get_run s), derefItem]
      dsimp only
      rw [bind_run]
      cases Store.loadOidDeref types p k s with
      | error e t => rfl
      | ok r t => cases r <;> rfl

/-- A key answers for every record that holds it: with the instance, or as if there were
    none. -/
theorem getByKey_answers (hs : Fences fam types s) {v : Val LiveRef}
    (hf : f ∈ (types.info c).uniqueFields) (hkeyed : Keyed types s c f v rec) :
    ∃ m, getByKey types p c f v s =
      (if s.opens types p rec then loadOid types rec.oid >>= fun o => pure (some o)
        else pure none : M (Option Nat)) { s with index := m } := by
  rcases hs.coherent with ⟨kind, hc⟩
  rcases ensureIndex_judges hs c with ⟨ci, m, hensure, hj⟩
  have hunique : (raiseIf (!(types.info c).uniqueFields.contains f) (.notUnique f) : M Unit) s =
      .ok () s := by
    rw [List.contains_iff_mem.mpr hf]
    rfl
  have hseen : (s.cidByTypename c).isNone = false :=
    Bool.eq_false_of_not_eq_true fun hseen => no_record_of_unseen hc.storage hseen hkeyed.1
  have hlook : lookupKey ci f v = .ok (some rec.oid) := by
    rcases hkeyed.2 with ⟨k, hk, hmem⟩
    have hholder := (hj.keys f hf k rec.oid).mpr ⟨rec, hkeyed.1, rfl, hmem⟩
    rw [lookupKey, hk]
    exact congrArg Except.ok hholder
  have hopens : s.opens types p rec =
      (!(types.info c).isProtected || isRoot p || canRead p (s.priorLabels rec)) :=
    (opens_of_record hc.storage hkeyed.1).2
  -- What the index says about the labels is what the record opens by.
  have hdeny : ((types.info c).isProtected && !isRoot p && !mayRead p ci rec.oid) =
      !s.opens types p rec := by
    rw [hopens]
    cases hprot : (types.info c).isProtected with
    | false => rfl
    | true =>
        rw [hj.mayRead_eq hprot hkeyed.1]
        cases isRoot p <;> cases canRead p (s.priorLabels rec) <;> rfl
  refine ⟨m, ?_⟩
  rw [getByKey, bind_run_ok hunique, bind_run_ok (get_run s), hseen,
    if_neg Bool.false_ne_true, bind_run_ok hensure,
    bind_run_ok (ofExcept_run_ok hlook _), loadReadable, hdeny]
  cases s.opens types p rec <;> rfl

/-- A blob of a protected record answers: with the bytes, or with a refusal. -/
theorem OnRecord.blobBytes (h : OnRecord types s oid c rec) (hs : Fences fam types s)
    (hprot : (types.info c).isProtected = true) {k : Nat} {content : List Nat}
    (hblob : s.backend.blobs.get? k = some content) :
    ∃ m, Store.blobBytes types p (some oid) k s =
      if s.opens types p rec then .ok content { s with index := m }
      else .error .readDenied { s with index := m } := by
  rcases hs.coherent with ⟨kind, hc⟩
  rcases h.recordOf hc.storage with ⟨hrec, hoid⟩
  -- The gate opens exactly where the record is opened to the principal.
  have hopens : s.opens types p rec = (isRoot p || canRead p (s.priorLabels rec)) := by
    rw [h.opens_eq, hprot]
    rfl
  have hgate : ∃ m, handleGate types p (some oid) s =
      if s.opens types p rec then .ok () { s with index := m }
      else .error .readDenied { s with index := m } := by
    rw [handleGate, blobReadGate, bind_run_ok (get_run s), hopens]
    by_cases hroot : isRoot p = true
    · rw [if_pos hroot, hroot]
      exact ⟨s.index, rfl⟩
    · rw [if_neg hroot, Bool.eq_false_of_not_eq_true hroot, Bool.false_or]
      -- It judges by the columns of the index for an instance, and by the record for an OID.
      cases hreg : s.registry.get? oid with
      | some o =>
          rcases ensureIndex_judges hs c with ⟨ci, m, hensure, hj⟩
          have hmay := hj.mayRead_eq (p := p) hprot hrec
          rw [hoid] at hmay
          refine ⟨m, ?_⟩
          dsimp only
          rw [h.instance_cls hc hreg, bind_run_ok hensure, hmay]
          cases canRead p (s.priorLabels rec) <;> rfl
      | none =>
          refine ⟨s.index, ?_⟩
          dsimp only
          rw [h.record]
          dsimp only
          cases canRead p (s.priorLabels rec) <;> rfl
  rcases hgate with ⟨m, hgate⟩
  refine ⟨m, ?_⟩
  rw [Store.blobBytes, bind_run, hgate]
  cases s.opens types p rec with
  | false => rfl
  | true =>
      rw [if_pos rfl, if_pos rfl]
      dsimp only
      rw [bind_run_ok (get_run _)]
      dsimp only
      rw [hblob]
      rfl

end Answers

section Reads

variable {types : Types} {p : Principal}

theorem reads_tiForCid (cid : Nat) : Moves (ReadStep types p) (tiForCid types cid) := by
  refine moves_get_bind fun s => ?_
  cases s.typenameByCid cid with
  | none => exact movesAt_throw _ _
  | some c => exact moves_ite (moves_pure _) (moves_throw _) s

theorem reads_checkHit (oid : Nat) : Moves (ReadStep types p) (checkHit types p oid) := by
  refine moves_get_bind fun s => ?_
  cases s.registry.get? oid with
  | none => exact movesAt_pure _ _
  | some o =>
      refine moves_get_bind (fun t => moves_ite (moves_pure _) ?_ t) s
      refine moves_bind (reads_ensureIndex _) fun ci => ?_
      cases ci.committedLabels oid <;> exact moves_pure _

theorem reads_loadOidDeref (oid : Nat) : Moves (ReadStep types p) (loadOidDeref types p oid) := by
  refine moves_bind (reads_checkHit oid) fun checked => moves_get_bind fun s => ?_
  cases checked with
  | some h => exact movesAt_pure _ _
  | none =>
      cases s.backend.objects.get? oid with
      | none => exact movesAt_throw _ _
      | some rec =>
          have htwin : Moves (ReadStep types p) (twinIfUnreadable types p rec oid) :=
            moves_bind (reads_tiForCid _) fun c => moves_bind moves_get fun t =>
              moves_ite (moves_pure _) (moves_pure _)
          refine moves_bind htwin (fun twin => ?_) s
          cases twin with
          | some h => exact moves_pure _
          | none => exact moves_bind (reads_loadOid oid) fun o => moves_pure _

theorem reads_lazyGet (h : Handle) : Moves (ReadStep types p) (lazyGet types p h) := by
  refine moves_get_bind fun s => ?_
  cases h with
  | unloaded oid =>
      refine moves_bind (reads_loadOidDeref oid) (fun handed => moves_get_bind fun t => ?_) s
      cases handed <;> exact movesAt_pure _ _
  | loaded k o =>
      refine moves_ite ?_ (moves_pure _) s
      cases (s.heap.get o).oid with
      | none => exact moves_pure _
      | some oid =>
          have hcached : Moves (ReadStep types p) (derefCachedProtected types p o oid) :=
            moves_get_bind fun t => moves_ite (moves_pure _) (reads_loadOidDeref oid) t
          exact moves_bind hcached fun handed => moves_pure _

theorem reads_getManyItems (items : List Sought) :
    Moves (ReadStep types p) (getManyItems types p items) := by
  refine moves_bind (moves_raiseIf _ _) fun _ => moves_mapM (fun i => ?_) items
  cases i with
  | oid oid => exact reads_loadOidDeref oid
  | ref oid => exact reads_loadOidDeref oid
  | entity o => exact moves_pure _
  | other => exact moves_throw _
  | handle h =>
      cases h with
      | unloaded oid => exact reads_loadOidDeref oid
      | loaded k o => exact moves_bind (reads_lazyGet _) fun r => moves_pure _

theorem reads_loadReadable (c : String) (ci : ClassIndexes) (holder : Option Nat) :
    Moves (ReadStep types p) (loadReadable types p c ci holder) := by
  cases holder with
  | none => exact moves_pure _
  | some oid =>
      exact moves_ite (moves_pure _) (moves_bind (reads_loadOid oid) fun o => moves_pure _)

theorem reads_getByKey (c f : String) (v : Val LiveRef) :
    Moves (ReadStep types p) (getByKey types p c f v) := by
  refine moves_bind (moves_raiseIf _ _) fun _ => moves_bind moves_get fun s => ?_
  refine moves_ite (moves_pure _) (moves_bind (reads_ensureIndex c) fun ci => ?_)
  exact moves_bind (moves_ofExcept _) fun holder => reads_loadReadable c ci holder

theorem reads_getManyByKey (c f : String) (vs : List (Val LiveRef)) :
    Moves (ReadStep types p) (getManyByKey types p c f vs) := by
  refine moves_bind (moves_raiseIf _ _) fun _ => moves_bind moves_get fun s => ?_
  refine moves_ite (moves_pure _) (moves_bind (reads_ensureIndex c) fun ci => ?_)
  exact moves_bind (moves_ofExcept _) fun holders => moves_mapM (reads_loadReadable c ci) holders

theorem reads_blobBytes (owner : Option Nat) (oid : Nat) :
    Moves (ReadStep types p) (blobBytes types p owner oid) := by
  have hgate : Moves (ReadStep types p) (handleGate types p owner) := by
    cases owner with
    | none => exact moves_pure _
    | some k =>
        refine moves_get_bind fun s => moves_ite (moves_pure _) ?_ s
        cases s.registry.get? k with
        | some o => exact moves_bind (reads_ensureIndex _) fun ci => moves_raiseIf _ _
        | none =>
            cases s.backend.objects.get? k with
            | none => exact moves_throw _
            | some rec => exact moves_raiseIf _ _
  refine moves_bind hgate fun _ => moves_get_bind fun s => ?_
  cases s.backend.blobs.get? oid with
  | none => exact movesAt_throw _ _
  | some content => exact movesAt_pure _ _

end Reads

end Store

/-- A read that passes the checkpoint. -/
inductive Dereference
  | lazyGet (h : Handle)
  | getMany (items : List Sought)
  | getByKey (c f : String) (v : Val LiveRef)
  | getManyByKey (c f : String) (vs : List (Val LiveRef))
  | blobBytes (owner : Option Nat) (oid : Nat)

def Dereference.run (types : Types) (p : Principal) : Dereference → Store.M Unit
  | .lazyGet h => effect (Store.lazyGet types p h)
  | .getMany items => effect (Store.getManyItems types p items)
  | .getByKey c f v => effect (Store.getByKey types p c f v)
  | .getManyByKey c f vs => effect (Store.getManyByKey types p c f vs)
  | .blobBytes owner oid => effect (Store.blobBytes types p owner oid)

/-- An event, or a read at the checkpoint by any principal. -/
inductive Visit
  | event (e : Event)
  | deref (p : Principal) (d : Dereference)

namespace Watched

open Store

variable {fam : String → String → Family} {fills : String → String → Option (Val Token)}

def visit (w : Watched) : Visit → Watched
  | .event e => w.step e
  | .deref p d => w.withStore (finalState (d.run w.world.types p w.world.store))

/-- The watched world after some visits. -/
def visits (w : Watched) (vs : List Visit) : Watched := vs.foldl visit w

/-- The condition on the events among the visits. -/
def KeepsVisited (fam : String → String → Family)
    (fills : String → String → Option (Val Token)) (w : Watched) : Visit → Prop
  | .event e => KeepsIndexed anyClass fam fills w e
  | .deref _ _ => True

theorem reads_dereference (types : Types) (p : Principal) (d : Dereference) :
    Moves (ReadStep types p) (d.run types p) := by
  cases d with
  | lazyGet h => exact moves_effect (reads_lazyGet h)
  | getMany items => exact moves_effect (reads_getManyItems items)
  | getByKey c f v => exact moves_effect (reads_getByKey c f v)
  | getManyByKey c f vs => exact moves_effect (reads_getManyByKey c f vs)
  | blobBytes owner oid => exact moves_effect (reads_blobBytes owner oid)

/-- What a read leaves behind, queries and loads leave behind. -/
theorem replayed_of_reads (w : Watched) (p : Principal) {t : Store}
    (h : Relation.ReflTransGen (ReadStep w.world.types p) w.world.store t) :
    ∃ events, EachStep step (KeepsIndexed anyClass fam fills) w events ∧
      w.withStore t = w.run events := by
  induction h with
  | refl => exact ⟨[], trivial, rfl⟩
  | @tail u v _ hstep ih =>
      rcases ih with ⟨events, hkeeps, hrun⟩
      have hone : ∃ op : Op, KeepsIndexed anyClass fam fills (w.run events) (.act p op) ∧
          w.withStore v = (w.run events).step (.act p op) := by
        rw [← hrun]
        rcases hstep with ⟨c, rfl⟩ | ⟨oid, rfl⟩
        · exact ⟨.query c, trivial, rfl⟩
        · exact ⟨.load oid, trivial, rfl⟩
      rcases hone with ⟨op, hop, hsame⟩
      refine ⟨events ++ [.act p op],
        (eachStep_append events [.act p op] w).mpr ⟨hkeeps, hop, trivial⟩, ?_⟩
      rw [hsame, run, run, List.foldl_append]
      rfl

/-- Visits are a run, as far as the store is concerned. -/
theorem visits_replayed (vs : List Visit) : ∀ w : Watched,
    EachStep visit (KeepsVisited fam fills) w vs →
    ∃ events, EachStep step (KeepsIndexed anyClass fam fills) w events ∧
      w.visits vs = w.run events := by
  induction vs with
  | nil => exact fun w _ => ⟨[], trivial, rfl⟩
  | cons v vs ih =>
      intro w hvs
      have hone : ∃ events, EachStep step (KeepsIndexed anyClass fam fills) w events ∧
          w.visit v = w.run events := by
        cases v with
        | event e => exact ⟨[e], ⟨hvs.1, trivial⟩, rfl⟩
        | deref p d =>
            exact replayed_of_reads w p (reads_dereference w.world.types p d w.world.store)
      rcases hone with ⟨events, hkeeps, hrun⟩
      rcases ih (w.visit v) hvs.2 with ⟨later, hlater, hrest⟩
      rw [hrun] at hlater hrest
      refine ⟨events ++ later, (eachStep_append _ _ w).mpr ⟨hkeeps, hlater⟩, ?_⟩
      rw [visits, List.foldl_cons, ← visits, hrun, hrest, run, run, run, List.foldl_append]

/-- The label columns of a shape are there together. -/
theorem run_labelShapes (types : Types) (attached : Bool) (events : List Event) :
    ((begin types attached).run events).world.store.backend.LabelShapes :=
  run_stored (Q := Backend.LabelShapes) (fun _ _ hrec => nomatch hrec)
    (fun _ _ _ _ hc hb h => stored_labelShapes hc hb h) types attached events

theorem run_fences (hfam : ∀ c f, fam c f ≠ .nan) (types : Types) (attached : Bool)
    (events : List Event)
    (hrun : EachStep step (KeepsIndexed anyClass fam fills) (begin types attached) events) :
    let w := ((begin types attached).run events).world
    w.store.Fences fam w.types := by
  intro w
  rcases run_coherent types attached events with ⟨kind, hc⟩
  exact ⟨run_reliable hfam types attached events hrun, run_brief types attached events,
    run_labelShapes types attached events, kind, hc.store⟩

/-- The owner commits a note, lets go of it and reads it again. -/
def readNote : List Visit :=
  [.event (.act noteOwner (.construct "note" [])), .event (.act noteOwner (.store 0)),
    .event (.act noteOwner (.commit false)), .event (.act noteOwner .discard),
    .deref noteOwner (.getMany [.oid oidBase])]

/-- The record of the note. -/
def noteRecord : StoredRecord :=
  (((begin DataCrystal.noteTypes false).visits readNote).world.store.backend.objects.get?
    oidBase).getD ⟨0, 0, 0, []⟩

theorem note_stands :
    let w := ((begin DataCrystal.noteTypes false).visits readNote).world
    OnRecord w.types w.store oidBase "note" noteRecord := by
  refine ⟨by decide +kernel, by decide +kernel, by decide +kernel, fun o ho => ?_⟩
  have hclean : ((((begin DataCrystal.noteTypes false).visits readNote).world.store.registry.get?
      oidBase).all fun o => (((begin DataCrystal.noteTypes false).visits readNote).world.store.heap.get
        o).state = .clean) = true := by decide +kernel
  rw [ho] at hclean
  intro hdeleted
  have hstate := of_decide_eq_true hclean
  rw [hdeleted] at hstate
  cases hstate

end Watched

end DataCrystal
