import DataCrystal.Index.Reverse
import DataCrystal.Lib.Memo
import DataCrystal.SnapshotReads

/-!
# Sibling Handles

The handles on a snapshot share one core. It keeps the views it has made, the
indexes of the classes it was asked for and the postings of the references, and
nothing in these names a principal: the first handle to ask fills them, and the
others find them filled. A handle keeps what its own principal may read of a class.
What it is given is decided by its principal every time, on a view that was found
in the cache as on one that was made.

Here the calls are written as the source has them, with their caches, beside the
reads that know of no cache. `call_gives` says that a call on any handle, whatever
was called before, comes to what the read comes to.

A batch of views is loaded in one go: what is missing is made first, and then every
view is taken out of the cache. Chunks, the lock and the closing of a snapshot are
left out.

## Main definitions

* `Snapshot.get`, `Snapshot.openBlob`, `Snapshot.incoming`: Reads without a cache.
* `Core`, `Bound`: What is cached.
* `Call`, `perform`: The calls on a handle.
* `Siblings`, `Siblings.ask`: Handles on one core, and a call on one of them.
* `CachesWell`: What is cached is what would be made now.

## Theorems

* `viewsFor_gives`: Views that are partly cached.
* `call_gives`: Every call comes to the read.
* `Watched.siblings_apart`: No handle notices the others.
-/

namespace DataCrystal

open Postings IndexManager

/-- The exceptions of a call on a handle. -/
inductive HandleErr
  | read (e : ReadErr SnapshotErr)
  | dangling (oid : Nat)
  | readDenied (oid : Nat)
  /-- The fields of a redacted view. -/
  | redacted (typename : String)
  | attribute (typename name : String)
  | unknownField (typename field : String)
  | noBlob (typename field : String)
  | notBlob (typename field : String)
  | danglingBlob (oid : Nat)
  /-- A view that is not in the cache. -/
  | notCached (oid : Nat)

/-- What a blob is asked of: a view, a redacted one, or an OID. -/
inductive BlobTarget
  | shown (v : Resolved)
  | oid (n : Nat)

namespace Snapshot

variable (types : Types) (s : Snapshot) (p : Principal)

/-- An exception of a read. -/
def asRead {α : Type} (x : Except (ReadErr SnapshotErr) α) : Except HandleErr α :=
  x.mapError .read

/-- The view of a record. -/
def viewOfRecord (rec : StoredRecord) : Except HandleErr EntityView :=
  asRead ((s.materialize types rec).mapError .source)

/-- The view of an OID, which must have a record. -/
def strictView (oid : Nat) : Except HandleErr EntityView :=
  match s.view.objects.get? oid with
  | none => .error (.dangling oid)
  | some rec => s.viewOfRecord types rec

/-- The strict deref. -/
def get (oid : Nat) : Except HandleErr EntityView := do
  let v ← s.strictView types oid
  if classify types p v = .ok then .ok v else .error (.readDenied oid)

/-- The attribute of a view. -/
def getattr (v : EntityView) (name : String) : Except HandleErr (Val Token) :=
  match v.values.get? name with
  | some x => .ok x
  | none => .error (.attribute v.typename name)

/-- The root value, if there is one. -/
def root : Except HandleErr (Option (Val Token)) :=
  match s.view.marks.rootOid with
  | none => .ok none
  | some oid => do
    let v ← s.get types p oid
    let value ← getattr v "value"
    .ok (some value)

/-- The bytes of a blob field of a view. -/
def blobOf (v : EntityView) (field : String) : Except HandleErr (List Nat) :=
  match v.values.get? field with
  | none => .error (.unknownField v.typename field)
  -- The digest in the field is not looked at.
  | some (.leaf (.blob oid _)) =>
    match s.view.blobs.get? oid with
    | some bytes => .ok bytes
    | none => .error (.danglingBlob oid)
  -- A blob field without a blob.
  | some .none => .error (.noBlob v.typename field)
  | some _ => .error (.notBlob v.typename field)

/-- A blob of a view that was passed in. It is judged again. -/
def fencedBlob (shown : Resolved) (field : String) : Except HandleErr (List Nat) :=
  match shown with
  | .redacted _ typename => .error (.redacted typename)
  | .view v =>
    if classify types p v = .ok then s.blobOf v field else .error (.readDenied v.oid)

/-- Open a blob field. -/
def openBlob (target : BlobTarget) (field : String) : Except HandleErr (List Nat) :=
  match target with
  | .shown v => s.fencedBlob types p v field
  | .oid n => do
    let v ← s.get types p n
    s.fencedBlob types p (.view v) field

/-- The reverse postings of all records. -/
def reverse : RefEdges := buildReverse s.view (s.view.types.map Prod.fst)

/-- The readable referrers of an OID. -/
def incoming (oid : Nat) : Except HandleErr (List EntityView) := do
  let views ← asRead (s.viewsFor types (oidsOf (posting s.reverse oid)))
  .ok (views.filter fun v => classify types p v = .ok)

end Snapshot

/-- What the handles share. -/
structure Core where
  cache : Dict Nat EntityView := Dict.empty
  indexes : Dict String ClassIndexes := Dict.empty
  reverse : Option RefEdges := none

/-- What is readable of the classes a handle was asked for. -/
abbrev Readables := Dict String (Option (Finset Nat))

/-- The core and the handle of a call. -/
structure Bound where
  core : Core
  readable : Readables

namespace Bound

/-- A call. -/
abbrev M := EStateM HandleErr Bound

variable (types : Types) (snap : Snapshot) (p : Principal)

def keepView (oid : Nat) (v : EntityView) (s : Bound) : Bound :=
  { s with core := { s.core with cache := s.core.cache.set oid v } }

def keepIndexes (c : String) (ci : ClassIndexes) (s : Bound) : Bound :=
  { s with core := { s.core with indexes := s.core.indexes.set c ci } }

def keepReverse (rev : RefEdges) (s : Bound) : Bound :=
  { s with core := { s.core with reverse := some rev } }

def keepReadable (c : String) (rb : Option (Finset Nat)) (s : Bound) : Bound :=
  { s with readable := s.readable.set c rb }

/-- An exception of a read. -/
def reading {α : Type} (x : Except (ReadErr SnapshotErr) α) : M α := ofExcept (Snapshot.asRead x)

def classIndexes (c : String) : M ClassIndexes :=
  memo (fun s => s.core.indexes.get? c) (keepIndexes c) (Snapshot.asRead (snap.classIndexes types c))

def ensureReverse : M RefEdges := memo (fun s => s.core.reverse) keepReverse (.ok snap.reverse)

/-- What the principal may read of a class; root reads everything. -/
def readableFor (c : String) (ci : ClassIndexes) : M (Option (Finset Nat)) :=
  memo (fun s => s.readable.get? c) (keepReadable c)
    (Snapshot.asRead (comparing (readableBitmap p ci)))

/-- Make the view of a record and keep it. -/
def materialize (rec : StoredRecord) : M EntityView := do
  let v ← ofExcept (snap.viewOfRecord types rec)
  modify (keepView rec.oid v)
  pure v

/-- The view of a record that was scanned. -/
def viewOf (rec : StoredRecord) : M EntityView :=
  memo (fun s => s.core.cache.get? rec.oid) (keepView rec.oid) (snap.viewOfRecord types rec)

/-- Make the view of an OID. -/
def loadOne (tolerant : Bool) (oid : Nat) : M Unit :=
  match snap.view.objects.get? oid with
  | none => if tolerant then pure () else throw (.read (.source (.noRecord oid)))
  | some rec => do
    let _ ← materialize types snap rec
    pure ()

/-- Make the views that are not there. -/
def loadMissing (tolerant : Bool) (oids : List Nat) : M Unit := do
  let s ← get
  (oids.filter fun oid => !s.core.cache.contains oid).forM (loadOne types snap tolerant)

/-- A view out of the cache. -/
def cached (s : Bound) (oid : Nat) : Except HandleErr EntityView :=
  match s.core.cache.get? oid with
  | some v => .ok v
  | none => .error (.notCached oid)

/-- The views of OIDs that have records. -/
def viewsFor (oids : List Nat) : M (List EntityView) := do
  loadMissing types snap false oids
  let s ← get
  ofExcept (oids.mapM s.cached)

/-- The views of any OIDs. -/
def viewsForTolerant (oids : List Nat) : M (List (Option EntityView)) := do
  loadMissing types snap true oids
  let s ← get
  pure (oids.map s.core.cache.get?)

/-- The view of an OID, out of the cache or made. -/
def strictView (oid : Nat) : M EntityView := do
  let s ← get
  match s.core.cache.get? oid with
  | some v => pure v
  | none =>
    match snap.view.objects.get? oid with
    | none => throw (.dangling oid)
    | some rec => materialize types snap rec

/-- The strict deref. -/
def get (oid : Nat) : M EntityView := do
  let v ← strictView types snap oid
  if Snapshot.classify types p v = .ok then pure v else throw (.readDenied oid)

def getMany (oids : List Nat) : M (List (Option Resolved)) := do
  let views ← viewsForTolerant types snap oids
  pure (views.map fun v => v.bind (Snapshot.fenced types p))

def root : M (Option (Val Token)) :=
  match snap.view.marks.rootOid with
  | none => pure none
  | some oid => do
    let v ← get types snap p oid
    let value ← ofExcept (Snapshot.getattr v "value")
    pure (some value)

def openBlob (target : BlobTarget) (field : String) : M (List Nat) :=
  match target with
  | .shown v => ofExcept (snap.fencedBlob types p v field)
  | .oid n => do
    let v ← get types snap p n
    ofExcept (snap.fencedBlob types p (.view v) field)

def incoming (oid : Nat) : M (List EntityView) := do
  let rev ← ensureReverse snap
  let views ← viewsFor types snap (oidsOf (posting rev oid))
  pure (views.filter fun v => Snapshot.classify types p v = .ok)

/-- The candidates the principal may read. -/
def fence (c : String) (ci : ClassIndexes) (candidate : Finset Nat) : M (Finset Nat) :=
  if (types.info c).isProtected then do
    let readable ← readableFor p c ci
    pure ((readable.map fun rb => candidate ∩ rb).getD candidate)
  else pure candidate

/-- The views of some OIDs on which the residual of a plan holds. -/
def selectViews (residual : Option (Cond Token)) (oids : List Nat) : M (List EntityView) := do
  let views ← viewsFor types snap oids
  reading (comparing (keptViews (residual.map viewCondition) views))

/-- The views of some candidates in a window. -/
def window (ci : ClassIndexes) (candidate : Finset Nat) (residual : Option (Cond Token))
    (order : Option (String × Bool)) (w : Window) : M (List EntityView) :=
  match order with
  | some (f, desc) =>
    if residual.isNone && ci.eq.contains f then do
      -- The postings say the order, so the views are made of the window only.
      let oids ← reading (comparing (windowedIndexOrder ci candidate f desc w))
      selectViews types snap none oids
    else do
      -- A view may fail the residual, so all of them are made.
      let views ← selectViews types snap residual (oidsOf candidate)
      let ordered ← reading (comparing (orderByValue (fun v => v.value f) desc views))
      pure (applyWindow w ordered)
  | none =>
    if residual.isNone then selectViews types snap none (windowIter w candidate)
    else do
      let views ← selectViews types snap residual (oidsOf candidate)
      pure (applyWindow w views)

/-- The views a condition matches, in a window. -/
def query (c : String) (cond : Option (Cond Token)) (limit : Option ℤ) (offset : ℤ)
    (order : Option OrderBy) : M (List EntityView) := do
  let w ← reading ((validateWindow limit offset).mapError .query)
  -- Nothing of the class was ever stored.
  if (snap.view.lineageOf c).isEmpty then pure []
  else do
    let order ← reading ((parseOrder order (types.info c)).mapError .query)
    let ci ← classIndexes types snap c
    let planned ← reading (comparing (planOf ci cond))
    let candidate ← fence types p c ci (planned.1.getD ci.extent)
    window types snap ci candidate planned.2 order w

/-- The number of the views a condition matches. -/
def count (c : String) (cond : Option (Cond Token)) : M Nat :=
  if (snap.view.lineageOf c).isEmpty then pure 0
  else do
    let ci ← classIndexes types snap c
    match cond with
    | none =>
      if (types.info c).isProtected then do
        let readable ← readableFor p c ci
        -- Root reads without a fence, and so sees the extent.
        pure ((readable.map Finset.card).getD ci.extent.card)
      else pure ci.extent.card
    | some cond => do
      let planned ← reading (comparing (plan ci cond))
      let candidate ← fence types p c ci (planned.1.getD ci.extent)
      -- Nothing left to evaluate: no view is made.
      if planned.2.isNone then pure candidate.card
      else do
        let views ← selectViews types snap planned.2 (oidsOf candidate)
        pure views.length

/-- The records are made views of until there are `stop` of them. -/
def streamViews (stop : Option Nat) :
    List StoredRecord → List EntityView → M (List EntityView × Bool)
  | [], out => pure (out, false)
  | rec :: recs, out => do
    let view ← viewOf types snap rec
    if stop.any fun n => n ≤ (out ++ [view]).length then pure (out ++ [view], true)
    else streamViews stop recs (out ++ [view])

/-- The window of the records in the order they are scanned. -/
def streamWindow (c : String) (w : Window) : M (List EntityView) := do
  let out ← streamViews types snap (w.limit.map fun n => w.offset + n) (snap.recordsOf c) []
  pure (if out.2 then out.1.drop w.offset else applyWindow w out.1)

/-- The views of the extent, off the index of the class. -/
def indexedWindow (c : String) (order : Option (String × Bool)) (w : Window) :
    M (List EntityView) := do
  let ci ← classIndexes types snap c
  let candidate ← fence types p c ci ci.extent
  window types snap ci candidate none order w

/-- Every committed entity of a class, in a window. -/
def all (c : String) (limit : Option ℤ) (offset : ℤ) (order : Option OrderBy) :
    M (List EntityView) := do
  let w ← reading ((validateWindow limit offset).mapError .query)
  -- Labels in the records and no class to enforce them: closed for all but root.
  if (types.known c).isNone && !isRoot p && snap.noLiveClassFenced types c then
    throw (.read (.denied c))
  else
    match types.known c, order with
    | none, some _ => throw (.read (.noLiveClass c))
    | none, none => streamWindow types snap c w
    | some ti, some o => do
      -- An order goes through the indexes of the class.
      let parsed ← reading ((parseOrderBy o ti).mapError .query)
      indexedWindow types snap p c (some parsed) w
    | some ti, none =>
      -- Without labels the records are streamed, and no index is built.
      if ti.isProtected then indexedWindow types snap p c none w else streamWindow types snap c w

end Bound

/-- A call on a handle. -/
inductive Call
  | root
  | get (oid : Nat)
  | getMany (oids : List Nat)
  | openBlob (target : BlobTarget) (field : String)
  | query (c : String) (cond : Option (Cond Token)) (limit : Option ℤ) (offset : ℤ)
      (order : Option OrderBy)
  | count (c : String) (cond : Option (Cond Token))
  | all (c : String) (limit : Option ℤ) (offset : ℤ) (order : Option OrderBy)
  | incoming (oid : Nat)

/-- What a call gives. -/
inductive Shown
  | value (v : Option (Val Token))
  | view (v : EntityView)
  | resolved (vs : List (Option Resolved))
  | bytes (data : List Nat)
  | views (vs : List EntityView)
  | number (n : Nat)

section Handles

variable (types : Types) (snap : Snapshot)

/-- The read of a call, without a cache. -/
def readOf (p : Principal) : Call → Except HandleErr Shown
  | .root => (snap.root types p).map .value
  | .get oid => (snap.get types p oid).map .view
  | .getMany oids =>
    (Snapshot.asRead ((snap.getMany types p oids).mapError .source)).map .resolved
  | .openBlob target field => (snap.openBlob types p target field).map .bytes
  | .query c cond limit offset order =>
    (Snapshot.asRead (snap.query types p c cond limit offset order)).map .views
  | .count c cond => (Snapshot.asRead (snap.count types p c cond)).map .number
  | .all c limit offset order =>
    (Snapshot.asRead (snap.allWindow types p c limit offset order)).map .views
  | .incoming oid => (snap.incoming types p oid).map .views

/-- A call with the caches. -/
def performCall (p : Principal) : Call → Bound.M Shown
  | .root => do
    let v ← Bound.root types snap p
    pure (.value v)
  | .get oid => do
    let v ← Bound.get types snap p oid
    pure (.view v)
  | .getMany oids => do
    let vs ← Bound.getMany types snap p oids
    pure (.resolved vs)
  | .openBlob target field => do
    let data ← Bound.openBlob types snap p target field
    pure (.bytes data)
  | .query c cond limit offset order => do
    let vs ← Bound.query types snap p c cond limit offset order
    pure (.views vs)
  | .count c cond => do
    let n ← Bound.count types snap p c cond
    pure (.number n)
  | .all c limit offset order => do
    let vs ← Bound.all types snap p c limit offset order
    pure (.views vs)
  | .incoming oid => do
    let vs ← Bound.incoming types snap p oid
    pure (.views vs)

/-- A handle: its principal and what it has kept. -/
structure BoundHandle where
  principal : Principal
  readable : Readables := Dict.empty

/-- Handles on one core. -/
structure Siblings where
  core : Core := {}
  handles : List BoundHandle := []

/-- What happens to the handles on a core. -/
inductive SiblingEvent
  /-- Bind another handle. -/
  | forPrincipal (p : Principal)
  | ask (h : Nat) (call : Call)

namespace Siblings

/-- Call a handle: what the call comes to, and the handles behind it. -/
def ask (s : Siblings) (h : Nat) (call : Call) : Option (Except HandleErr Shown) × Siblings :=
  match s.handles[h]? with
  | none => (none, s)
  | some handle =>
    let result := performCall types snap handle.principal call ⟨s.core, handle.readable⟩
    (some (resultOf result), { s with
      core := (finalState result).core
      handles := s.handles.set h { handle with readable := (finalState result).readable } })

def step (s : Siblings) : SiblingEvent → Siblings
  | .forPrincipal p => { s with handles := s.handles ++ [{ principal := p }] }
  | .ask h call => (s.ask types snap h call).2

/-- Handles that are bound and called in any order. -/
def run (s : Siblings) (events : List SiblingEvent) : Siblings := events.foldl (step types snap) s

/-- A fresh snapshot with one handle. -/
def fresh (p : Principal) : Siblings := { handles := [{ principal := p }] }

end Siblings

end Handles

/-! ### What is cached -/

/-- What the core has cached is what would be made now: the views of the records,
    the indexes of the classes and the reverse postings. The view is pinned, so this
    does not age. -/
structure CoreWell (types : Types) (snap : Snapshot) (core : Core) : Prop where
  cache : ∀ oid v, core.cache.get? oid = some v →
    ∃ rec, snap.view.objects.get? oid = some rec ∧ snap.materialize types rec = .ok v
  indexes : ∀ c ci, core.indexes.get? c = some ci → snap.classIndexes types c = .ok ci
  reverse : ∀ rev, core.reverse = some rev → rev = snap.reverse

/-- What a handle has cached is what its principal may read. -/
def ReadableWell (types : Types) (snap : Snapshot) (p : Principal) (readable : Readables) : Prop :=
  ∀ c rb, readable.get? c = some rb →
    ∃ ci, snap.classIndexes types c = .ok ci ∧ readableBitmap p ci = .ok rb

/-- What a call finds cached is what would be made now, in the core and in the
    handle it is made on. With this a call may as well start without a cache. -/
structure CachesWell (types : Types) (snap : Snapshot) (p : Principal) (s : Bound) : Prop where
  core : CoreWell types snap s.core
  readable : ReadableWell types snap p s.readable

namespace Bound

section Gives

variable {types : Types} {snap : Snapshot} {p : Principal}

theorem asRead_ok_iff {α : Type} {x : Except (ReadErr SnapshotErr) α} {a : α} :
    Snapshot.asRead x = .ok a ↔ x = .ok a := except_mapError_ok_iff

theorem asRead_bind {α β : Type} (x : Except (ReadErr SnapshotErr) α)
    (f : α → Except (ReadErr SnapshotErr) β) :
    Snapshot.asRead (x >>= f) = Snapshot.asRead x >>= fun a => Snapshot.asRead (f a) := by
  cases x <;> rfl

theorem viewOfRecord_ok_iff {rec : StoredRecord} {v : EntityView} :
    snap.viewOfRecord types rec = .ok v ↔ snap.materialize types rec = .ok v := by
  rw [Snapshot.viewOfRecord, asRead_ok_iff, except_mapError_ok_iff]

theorem gives_reading {α : Type} (x : Except (ReadErr SnapshotErr) α) :
    Gives (CachesWell types snap p) (reading x) (Snapshot.asRead x) :=
  gives_ofExcept _

theorem keepView_well {s : Bound} {rec : StoredRecord} {oid : Nat} {v : EntityView}
    (hs : CachesWell types snap p s) (hrec : snap.view.objects.get? oid = some rec)
    (hv : snap.materialize types rec = .ok v) : CachesWell types snap p (keepView oid v s) := by
  refine ⟨⟨fun oid' v' h => ?_, hs.core.indexes, hs.core.reverse⟩, hs.readable⟩
  rw [keepView, Dict.get?_set] at h
  split_ifs at h with heq
  · cases h
    exact ⟨rec, heq ▸ hrec, hv⟩
  · exact hs.core.cache oid' v' h

theorem classIndexes_gives (c : String) : Gives (CachesWell types snap p)
    (classIndexes types snap c) (Snapshot.asRead (snap.classIndexes types c)) := by
  refine gives_memo (fun s ci hs h => asRead_ok_iff.mpr (hs.core.indexes c ci h)) ?_
  intro s ci hs hci
  refine ⟨⟨hs.core.cache, fun c' ci' h => ?_, hs.core.reverse⟩, hs.readable⟩
  rw [keepIndexes, Dict.get?_set] at h
  split_ifs at h with heq
  · cases h
    exact heq ▸ asRead_ok_iff.mp hci
  · exact hs.core.indexes c' ci' h

theorem ensureReverse_gives :
    Gives (CachesWell types snap p) (ensureReverse snap) (.ok snap.reverse) := by
  refine gives_memo (fun s rev hs h => congrArg _ (hs.core.reverse rev h).symm) ?_
  intro s rev hs hrev
  refine ⟨⟨hs.core.cache, hs.core.indexes, fun rev' h => ?_⟩, hs.readable⟩
  rw [keepReverse, Option.some.injEq] at h
  exact h.symm.trans (Except.ok.inj hrev).symm

/-- A handle goes by the readable OIDs of its own principal. -/
theorem readableFor_gives {c : String} {ci : ClassIndexes}
    (hci : snap.classIndexes types c = .ok ci) : Gives (CachesWell types snap p)
      (readableFor p c ci) (Snapshot.asRead (comparing (readableBitmap p ci))) := by
  refine gives_memo (fun s rb hs h => ?_) fun s rb hs hrb => ?_
  · rcases hs.readable c rb h with ⟨ci', hci', hrb⟩
    cases hci.symm.trans hci'
    rw [hrb]
    rfl
  · refine ⟨hs.core, fun c' rb' h => ?_⟩
    rw [keepReadable, Dict.get?_set] at h
    split_ifs at h with heq
    · cases h
      exact ⟨ci, heq ▸ hci, except_mapError_ok_iff.mp (asRead_ok_iff.mp hrb)⟩
    · exact hs.readable c' rb' h

theorem viewOf_gives {rec : StoredRecord}
    (hrec : snap.view.objects.get? rec.oid = some rec) : Gives (CachesWell types snap p)
      (viewOf types snap rec) (snap.viewOfRecord types rec) := by
  refine gives_memo (fun s v hs h => ?_) fun s v hs hv => ?_
  · rcases hs.core.cache rec.oid v h with ⟨rec', hrec', hv⟩
    cases hrec.symm.trans hrec'
    exact viewOfRecord_ok_iff.mpr hv
  · exact keepView_well hs hrec (viewOfRecord_ok_iff.mp hv)

theorem materialize_gives {rec : StoredRecord}
    (hrec : snap.view.objects.get? rec.oid = some rec) : Gives (CachesWell types snap p)
      (materialize types snap rec) (snap.viewOfRecord types rec) := by
  have hbind : snap.viewOfRecord types rec = snap.viewOfRecord types rec >>= fun v => .ok v := by
    cases snap.viewOfRecord types rec <;> rfl
  rw [hbind]
  refine gives_bind (gives_ofExcept _) fun v hv => ?_
  have hkeep : Gives (CachesWell types snap p) (modify (keepView rec.oid v) : M PUnit)
      (.ok ⟨⟩) :=
    gives_modify fun s hs => keepView_well hs hrec (viewOfRecord_ok_iff.mp hv)
  exact gives_bind hkeep fun _ _ => gives_pure v

/-- What making the view of an OID comes to. -/
def loaded (types : Types) (snap : Snapshot) (tolerant : Bool) (oid : Nat) :
    Except HandleErr Unit :=
  match snap.view.objects.get? oid with
  | none => if tolerant then .ok () else .error (.read (.source (.noRecord oid)))
  | some rec => (snap.viewOfRecord types rec).map fun _ => ()

theorem loadOne_gives (hf : snap.view.Filed) (tolerant : Bool) (oid : Nat) :
    Gives (CachesWell types snap p) (loadOne types snap tolerant oid)
      (loaded types snap tolerant oid) := by
  unfold loadOne loaded
  cases hget : snap.view.objects.get? oid with
  | none =>
      cases tolerant with
      | true => exact gives_pure ()
      | false => exact gives_throw _
  | some rec =>
      have hrec : snap.view.objects.get? rec.oid = some rec := by rw [hf oid rec hget, hget]
      exact gives_map (materialize_gives hrec) fun _ => ()

/-- What succeeds anyway may be left out of a loop. -/
theorem forM_filter {α : Type} {g : α → Except HandleErr PUnit} {q : α → Bool} (xs : List α)
    (h : ∀ x ∈ xs, q x = false → g x = .ok ()) : (xs.filter q).forM g = xs.forM g := by
  induction xs with
  | nil => rfl
  | cons x xs ih =>
      have hrest := ih fun y hy => h y (List.mem_cons_of_mem x hy)
      cases hq : q x with
      | true =>
          rw [List.filter_cons_of_pos hq]
          exact congrArg (fun r => g x >>= fun _ => r) hrest
      | false =>
          rw [List.filter_cons_of_neg (by simp [hq]), hrest]
          change _ = g x >>= fun _ => xs.forM g
          rw [h x List.mem_cons_self hq]
          rfl

/-- Loading what is missing comes to loading everything. -/
theorem loadMissing_gives (hf : snap.view.Filed) (tolerant : Bool) (oids : List Nat) :
    Gives (CachesWell types snap p) (loadMissing types snap tolerant oids)
      (oids.forM (loaded types snap tolerant)) := by
  refine gives_get_bind fun s hs => ?_
  rw [← forM_filter (q := fun oid => !s.core.cache.contains oid) oids]
  · exact gives_forM _ fun oid _ => loadOne_gives hf tolerant oid
  · intro oid _ hcached
    rw [Bool.not_eq_false', Dict.contains, Option.isSome_iff_exists] at hcached
    rcases hcached with ⟨v, hv⟩
    rcases hs.core.cache oid v hv with ⟨rec, hrec, hmade⟩
    simp only [loaded, hrec, viewOfRecord_ok_iff.mpr hmade]
    rfl

/-- No view is dropped from the cache. -/
def Grows (s t : Bound) : Prop :=
  ∀ oid, s.core.cache.contains oid = true → t.core.cache.contains oid = true

theorem Grows.refl (s : Bound) : Grows s s := fun _ h => h

theorem Grows.trans (s t u : Bound) (h : Grows s t) (h' : Grows t u) : Grows s u :=
  fun oid hs => h' oid (h oid hs)

theorem keepView_grows (s : Bound) (oid : Nat) (v : EntityView) : Grows s (keepView oid v s) := by
  intro oid' h
  rw [Dict.contains_iff] at h ⊢
  exact (Dict.mem_keys_set _ _ _ _).mpr (Or.inr h)

theorem loadOne_grows (hf : snap.view.Filed) (tolerant : Bool) (oid : Nat) (s : Bound) :
    Framed Grows (loadOne types snap tolerant oid) s fun _ t =>
      (snap.view.objects.get? oid).isSome → t.core.cache.contains oid = true := by
  unfold loadOne
  cases hget : snap.view.objects.get? oid with
  | none =>
      cases tolerant with
      | true => exact framed_pure Grows.refl fun h => nomatch h
      | false => exact framed_throw Grows.refl
  | some rec =>
      have hoid := hf oid rec hget
      have hmade : Framed Grows (materialize types snap rec) s fun _ t =>
          t.core.cache.contains oid = true := by
        refine framed_bind Grows.trans (framed_ofExcept Grows.refl) ?_
        rintro v t - ⟨rfl, -⟩
        refine framed_bind Grows.trans (P := fun _ u => u.core.cache.contains oid = true)
          (framed_modify (keepView_grows t rec.oid v) ?_) fun _ u _ hu =>
            framed_pure Grows.refl hu
        rw [Dict.contains_iff, ← hoid]
        exact (Dict.mem_keys_set _ _ _ _).mpr (Or.inl rfl)
      exact framed_bind Grows.trans hmade fun _ t _ ht => framed_pure Grows.refl fun _ => ht

/-- Behind a load every view is there whose OID has a record. -/
theorem loadMissing_cached (hf : snap.view.Filed) {tolerant : Bool} {oids : List Nat}
    {s t : Bound} {r : Unit} (hrun : loadMissing types snap tolerant oids s = .ok r t) :
    ∀ oid ∈ oids, (snap.view.objects.get? oid).isSome → t.core.cache.contains oid = true := by
  have hload : Framed Grows (loadMissing types snap tolerant oids) s fun _ t =>
      ∀ oid ∈ oids, (snap.view.objects.get? oid).isSome →
        t.core.cache.contains oid = true ∨ oid ∈ ([] : List Nat) := by
    refine framed_get_bind (framed_forM Grows.trans Grows.refl (P := fun rest t =>
      ∀ oid ∈ oids, (snap.view.objects.get? oid).isSome →
        t.core.cache.contains oid = true ∨ oid ∈ rest) ?_ _ s ?_)
    · intro oid rest t ht
      have hgrows : Framed Grows (loadOne types snap tolerant oid) t fun _ u =>
          (snap.view.objects.get? oid).isSome → u.core.cache.contains oid = true :=
        loadOne_grows hf tolerant oid t
      have hone := hgrows.imp fun _ u htu hu => (⟨htu, hu⟩ : Grows t u ∧ _)
      refine hone.imp fun _ u _ hu oid' hoid' hsome => ?_
      rcases ht oid' hoid' hsome with h | h
      · exact Or.inl (hu.1 oid' h)
      · rcases List.mem_cons.mp h with rfl | h
        · exact Or.inl (hu.2 hsome)
        · exact Or.inr h
    · intro oid hoid _
      cases hcached : s.core.cache.contains oid with
      | true => exact Or.inl rfl
      | false => exact Or.inr (List.mem_filter.mpr ⟨hoid, by rw [hcached]; rfl⟩)
  exact fun oid hoid hsome =>
    (hload.returns r t hrun oid hoid hsome).resolve_right List.not_mem_nil

/-- The view of an OID that has a record. -/
def viewErr (types : Types) (snap : Snapshot) (oid : Nat) : Except HandleErr EntityView :=
  Snapshot.asRead ((snap.viewFor types oid).mapError .source)

theorem mapM_mapError {α β ε ε' : Type} {f : α → Except ε β} {g : ε → ε'} (xs : List α) :
    (xs.mapM f).mapError g = xs.mapM fun x => (f x).mapError g := by
  induction xs with
  | nil => rfl
  | cons x xs ih =>
      rw [List.mapM_cons, List.mapM_cons, ← ih]
      cases f x with
      | error e => rfl
      | ok y => cases xs.mapM f <;> rfl

theorem forM_eq_mapM {α β ε : Type} {f : α → Except ε β} (xs : List α) :
    (xs.forM fun x => (f x).map fun _ => ()) = (xs.mapM f).map fun _ => () := by
  induction xs with
  | nil => rfl
  | cons x xs ih =>
      rw [List.mapM_cons]
      change ((f x).map fun _ => ()) >>= (fun _ => xs.forM fun x => (f x).map fun _ => ()) = _
      rw [ih]
      cases f x with
      | error e => rfl
      | ok y => cases xs.mapM f <;> rfl

theorem mapM_congr {α β ε : Type} {f g : α → Except ε β} (xs : List α)
    (h : ∀ x ∈ xs, f x = g x) : xs.mapM f = xs.mapM g := by
  induction xs with
  | nil => rfl
  | cons x xs ih =>
      rw [List.mapM_cons, List.mapM_cons, h x List.mem_cons_self,
        ih fun y hy => h y (List.mem_cons_of_mem x hy)]

theorem asRead_viewsFor (oids : List Nat) :
    Snapshot.asRead (snap.viewsFor types oids) = oids.mapM (viewErr types snap) := by
  rw [Snapshot.viewsFor, mapM_mapError, Snapshot.asRead, mapM_mapError]
  rfl

theorem loaded_strict (oid : Nat) :
    loaded types snap false oid = (viewErr types snap oid).map fun _ => () := by
  unfold loaded viewErr Snapshot.viewFor
  cases snap.view.objects.get? oid <;> rfl

/-- What is taken out of the cache is what would be made now. -/
theorem cached_eq {s : Bound} (hs : CachesWell types snap p s) {oid : Nat}
    (hcached : s.core.cache.contains oid = true) : s.cached oid = viewErr types snap oid := by
  rcases Option.isSome_iff_exists.mp hcached with ⟨v, hv⟩
  rcases hs.core.cache oid v hv with ⟨rec, hrec, hmade⟩
  simp only [cached, hv, viewErr, Snapshot.viewFor, hrec, hmade]
  rfl

/-- A batch of views, some of them cached. -/
theorem viewsFor_gives (hf : snap.view.Filed) (oids : List Nat) : Gives (CachesWell types snap p)
    (viewsFor types snap oids) (Snapshot.asRead (snap.viewsFor types oids)) := by
  rw [asRead_viewsFor]
  have hload : Gives (CachesWell types snap p) (loadMissing types snap false oids)
      (oids.forM (loaded types snap false)) := loadMissing_gives hf false oids
  have heq : oids.forM (loaded types snap false) =
      (oids.mapM (viewErr types snap)).map fun _ => () := by
    rw [← forM_eq_mapM]
    exact congrArg oids.forM (funext loaded_strict)
  rw [heq] at hload
  refine gives_bind_run hload ?_ fun s r t hs ht hrun hok => ?_
  -- A load that raises, raises what the view of the record raises.
  · intro e he
    cases hviews : oids.mapM (viewErr types snap) with
    | ok vs =>
        rw [hviews] at he
        cases he
    | error e' =>
        rw [hviews] at he
        cases he
        rfl
  -- Every record of the list is in the cache behind the load.
  · have hall : ∀ oid ∈ oids, t.cached oid = viewErr types snap oid := by
      intro oid hoid
      refine cached_eq ht (loadMissing_cached hf hrun oid hoid ?_)
      cases hviews : oids.mapM (viewErr types snap) with
      | error e =>
          rw [hviews] at hok
          cases hok
      | ok vs =>
          rcases except_mapM_mem hviews oid hoid with ⟨v, -, hv⟩
          unfold viewErr Snapshot.viewFor at hv
          cases hget : snap.view.objects.get? oid with
          | none =>
              rw [hget] at hv
              cases hv
          | some rec => rfl
    rw [bind_run_ok (get_run t), mapM_congr oids hall]
    have hgives : Gives (CachesWell types snap p) (ofExcept (oids.mapM (viewErr types snap)))
        (oids.mapM (viewErr types snap)) := gives_ofExcept _
    exact ⟨hgives.keeps t ht, hgives.gives t ht⟩

/-- The view of any OID. -/
def tolerantErr (types : Types) (snap : Snapshot) (oid : Nat) :
    Except HandleErr (Option EntityView) :=
  Snapshot.asRead ((snap.viewTolerant types oid).mapError .source)

theorem loaded_tolerant (oid : Nat) :
    loaded types snap true oid = (tolerantErr types snap oid).map fun _ => () := by
  unfold loaded tolerantErr Snapshot.viewTolerant Snapshot.viewOfRecord
  cases snap.view.objects.get? oid with
  | none => rfl
  | some rec => cases h : snap.materialize types rec <;> simp only [h] <;> rfl

theorem tolerant_eq {s : Bound} (hs : CachesWell types snap p s) {oid : Nat}
    (hcached : (snap.view.objects.get? oid).isSome → s.core.cache.contains oid = true) :
    tolerantErr types snap oid = .ok (s.core.cache.get? oid) := by
  cases hv : s.core.cache.get? oid with
  | some v =>
      rcases hs.core.cache oid v hv with ⟨rec, hrec, hmade⟩
      simp only [tolerantErr, Snapshot.viewTolerant, hrec, hmade]
      rfl
  | none =>
      cases hget : snap.view.objects.get? oid with
      | none =>
          simp only [tolerantErr, Snapshot.viewTolerant, hget]
          rfl
      | some rec =>
          rw [hget] at hcached
          have h := hcached rfl
          rw [Dict.contains, hv] at h
          cases h

theorem mapM_of_ok {α β ε : Type} {f : α → Except ε β} {g : α → β} (xs : List α)
    (h : ∀ x ∈ xs, f x = .ok (g x)) : xs.mapM f = .ok (xs.map g) := except_mapM_ok xs h

/-- A batch of OIDs that may have no record. -/
theorem viewsForTolerant_gives (hf : snap.view.Filed) (oids : List Nat) :
    Gives (CachesWell types snap p) (viewsForTolerant types snap oids)
      (oids.mapM (tolerantErr types snap)) := by
  have hload : Gives (CachesWell types snap p) (loadMissing types snap true oids)
      (oids.forM (loaded types snap true)) := loadMissing_gives hf true oids
  have heq : oids.forM (loaded types snap true) =
      (oids.mapM (tolerantErr types snap)).map fun _ => () := by
    rw [← forM_eq_mapM]
    exact congrArg oids.forM (funext loaded_tolerant)
  rw [heq] at hload
  refine gives_bind_run hload ?_ fun s r t hs ht hrun hok => ?_
  · intro e he
    cases hviews : oids.mapM (tolerantErr types snap) with
    | ok vs =>
        rw [hviews] at he
        cases he
    | error e' =>
        rw [hviews] at he
        cases he
        rfl
  · rw [bind_run_ok (get_run t), mapM_of_ok oids fun oid hoid =>
      tolerant_eq ht (loadMissing_cached hf hrun oid hoid)]
    exact ⟨ht, rfl⟩

theorem getMany_gives (hf : snap.view.Filed) (oids : List Nat) : Gives (CachesWell types snap p)
    (getMany types snap p oids)
    (Snapshot.asRead ((snap.getMany types p oids).mapError .source)) := by
  have hmap : oids.mapM (tolerantErr types snap) =
      Snapshot.asRead ((oids.mapM (snap.viewTolerant types)).mapError .source) := by
    rw [Snapshot.asRead, mapM_mapError, mapM_mapError]
    rfl
  have heq : Snapshot.asRead ((snap.getMany types p oids).mapError .source) =
      (oids.mapM (tolerantErr types snap)).map fun views =>
        views.map fun v => v.bind (Snapshot.fenced types p) := by
    rw [hmap, Snapshot.getMany]
    cases oids.mapM (snap.viewTolerant types) <;> rfl
  rw [heq]
  exact gives_map (viewsForTolerant_gives hf oids) _

theorem strictView_gives (hf : snap.view.Filed) (oid : Nat) : Gives (CachesWell types snap p)
    (strictView types snap oid) (snap.strictView types oid) := by
  refine gives_get_bind fun s hs => ?_
  unfold Snapshot.strictView
  cases hv : s.core.cache.get? oid with
  | some v =>
      rcases hs.core.cache oid v hv with ⟨rec, hrec, hmade⟩
      simp only [hrec, viewOfRecord_ok_iff.mpr hmade]
      exact gives_pure v
  | none =>
      cases hget : snap.view.objects.get? oid with
      | none => exact gives_throw _
      | some rec =>
          exact materialize_gives (by rw [hf oid rec hget, hget])

/-- The strict deref judges a view that was cached like one that was made. -/
theorem get_gives (hf : snap.view.Filed) (oid : Nat) : Gives (CachesWell types snap p)
    (get types snap p oid) (snap.get types p oid) := by
  refine gives_bind (strictView_gives hf oid) fun v _ => ?_
  split_ifs
  · exact gives_pure v
  · exact gives_throw _

theorem root_gives (hf : snap.view.Filed) : Gives (CachesWell types snap p)
    (root types snap p) (snap.root types p) := by
  unfold root Snapshot.root
  cases snap.view.marks.rootOid with
  | none => exact gives_pure none
  | some oid =>
      refine gives_bind (get_gives hf oid) fun v _ => ?_
      exact gives_bind (gives_ofExcept _) fun value _ => gives_pure (some value)

theorem openBlob_gives (hf : snap.view.Filed) (target : BlobTarget) (field : String) :
    Gives (CachesWell types snap p) (openBlob types snap p target field)
      (snap.openBlob types p target field) := by
  cases target with
  | shown v => exact gives_ofExcept _
  | oid n => exact gives_bind (get_gives hf n) fun v _ => gives_ofExcept _

theorem incoming_gives (hf : snap.view.Filed) (oid : Nat) : Gives (CachesWell types snap p)
    (incoming types snap p oid) (snap.incoming types p oid) := by
  refine gives_bind (g := fun rev => do
    let views ← Snapshot.asRead (snap.viewsFor types (oidsOf (posting rev oid)))
    .ok (views.filter fun v => Snapshot.classify types p v = .ok)) ensureReverse_gives ?_
  exact fun rev _ => gives_bind (viewsFor_gives hf _) fun views _ => gives_pure _

/-- The candidates a principal may read. -/
def fenced (ti : TypeInfo) (p : Principal) (ci : ClassIndexes) (candidate : Finset Nat) :
    Except (ReadErr SnapshotErr) (Finset Nat) :=
  if ti.isProtected then
    (comparing (readableBitmap p ci)).map fun readable =>
      (readable.map fun rb => candidate ∩ rb).getD candidate
  else .ok candidate

theorem candidates_fenced {ti : TypeInfo} {ci : ClassIndexes} {cond : Option (Cond Token)} :
    (comparing (candidates ti ci cond p) : Except (ReadErr SnapshotErr) _) =
      comparing (planOf ci cond) >>= fun planned =>
        fenced ti p ci (planned.1.getD ci.extent) >>= fun candidate => .ok (candidate, planned.2) := by
  unfold candidates fenced
  cases planOf ci cond with
  | error e => rfl
  | ok planned =>
      by_cases hprot : ti.isProtected = true
      · simp only [hprot, if_true]
        rcases readableBitmap p ci with e | ⟨_ | rb⟩ <;> rfl
      · simp only [hprot]
        rfl

theorem fence_gives {c : String} {ci : ClassIndexes} (hci : snap.classIndexes types c = .ok ci)
    (candidate : Finset Nat) : Gives (CachesWell types snap p) (fence types p c ci candidate)
      (Snapshot.asRead (fenced (types.info c) p ci candidate)) := by
  unfold fence fenced
  by_cases hprot : (types.info c).isProtected = true
  · simp only [hprot, if_true]
    have heq : Snapshot.asRead ((comparing (readableBitmap p ci)).map fun readable =>
        (readable.map fun rb => candidate ∩ rb).getD candidate) =
        (Snapshot.asRead (comparing (readableBitmap p ci))).map fun readable =>
          (readable.map fun rb => candidate ∩ rb).getD candidate := by
      cases (comparing (readableBitmap p ci) : Except (ReadErr SnapshotErr) _) <;> rfl
    rw [heq]
    exact gives_map (readableFor_gives hci) _
  · simp only [hprot]
    exact gives_pure candidate

theorem selectViews_gives (hf : snap.view.Filed) (residual : Option (Cond Token))
    (oids : List Nat) : Gives (CachesWell types snap p) (selectViews types snap residual oids)
      (Snapshot.asRead (snap.selectViews types residual oids)) := by
  rw [Snapshot.selectViews, Snapshot.selectKept, asRead_bind]
  exact gives_bind (viewsFor_gives hf oids) fun views _ => gives_reading _

theorem window_gives (hf : snap.view.Filed) (ci : ClassIndexes) (candidate : Finset Nat)
    (residual : Option (Cond Token)) (order : Option (String × Bool)) (w : Window) :
    Gives (CachesWell types snap p) (window types snap ci candidate residual order w)
      (Snapshot.asRead (readWindow ci (snap.selectViews types) EntityView.value candidate residual
        order w)) := by
  unfold window readWindow
  cases order with
  | none =>
      by_cases hres : residual.isNone = true
      · simp only [hres, if_true]
        exact selectViews_gives hf none _
      · simp only [hres, if_false, Bool.false_eq_true, asRead_bind]
        exact gives_bind (selectViews_gives hf residual _) fun views _ => gives_pure _
  | some o =>
      by_cases hindex : (residual.isNone && ci.eq.contains o.1) = true
      · simp only [hindex, if_true, asRead_bind]
        exact gives_bind (gives_reading _) fun oids _ => selectViews_gives hf none oids
      · simp only [hindex, if_false, Bool.false_eq_true, asRead_bind]
        refine gives_bind (selectViews_gives hf residual _) fun views _ => ?_
        exact gives_bind (gives_reading _) fun ordered _ => gives_pure _

/-- The candidates of a class a handle was asked for, as the plan leaves them. -/
theorem query_gives (hf : snap.view.Filed) (c : String) (cond : Option (Cond Token))
    (limit : Option ℤ) (offset : ℤ) (order : Option OrderBy) : Gives (CachesWell types snap p)
      (query types snap p c cond limit offset order)
      (Snapshot.asRead (snap.query types p c cond limit offset order)) := by
  unfold query Snapshot.query
  rw [asRead_bind]
  refine gives_bind (gives_reading _) fun w _ => ?_
  by_cases hempty : (snap.view.lineageOf c).isEmpty = true
  · simp only [hempty, if_true]
    exact gives_pure []
  · simp only [hempty, if_false, Bool.false_eq_true, asRead_bind, candidates_fenced, bind_assoc]
    refine gives_bind (gives_reading _) fun order' _ => ?_
    refine gives_bind (classIndexes_gives c) fun ci hci => ?_
    refine gives_bind (gives_reading _) fun planned _ => ?_
    refine gives_bind (fence_gives (asRead_ok_iff.mp hci) _) fun candidate _ => ?_
    exact window_gives hf ci candidate planned.2 order' w

theorem count_gives (hf : snap.view.Filed) (c : String) (cond : Option (Cond Token)) :
    Gives (CachesWell types snap p) (count types snap p c cond)
      (Snapshot.asRead (snap.count types p c cond)) := by
  unfold count Snapshot.count
  by_cases hempty : (snap.view.lineageOf c).isEmpty = true
  · simp only [hempty, if_true]
    exact gives_pure 0
  · simp only [hempty, if_false, Bool.false_eq_true, asRead_bind]
    refine gives_bind (classIndexes_gives c) fun ci hci => ?_
    unfold countSelected
    cases cond with
    | none =>
        by_cases hprot : (types.info c).isProtected = true
        · simp only [hprot, if_true, asRead_bind]
          exact gives_bind (readableFor_gives (asRead_ok_iff.mp hci)) fun readable _ => gives_pure _
        · simp only [hprot]
          exact gives_pure _
    | some cond =>
        simp only [asRead_bind, candidates_fenced, bind_assoc]
        refine gives_bind (gives_reading _) fun planned _ => ?_
        refine gives_bind (fence_gives (asRead_ok_iff.mp hci) _) fun candidate _ => ?_
        change Gives _ _ (Snapshot.asRead (if planned.2.isNone = true then _ else _))
        by_cases hres : planned.2.isNone = true
        · simp only [hres, if_true]
          exact gives_pure _
        · simp only [hres, if_false, Bool.false_eq_true, asRead_bind]
          exact gives_bind (selectViews_gives hf planned.2 _) fun views _ => gives_pure _

/-- A stream of records, each cached or made. -/
theorem streamViews_gives (stop : Option Nat) (recs : List StoredRecord)
    (hrecs : ∀ rec ∈ recs, snap.view.objects.get? rec.oid = some rec) : ∀ out,
    Gives (CachesWell types snap p) (streamViews types snap stop recs out)
      (Snapshot.asRead ((snap.streamViews types stop recs out).mapError .source)) := by
  induction recs with
  | nil => exact fun out => gives_pure _
  | cons rec recs ih =>
      intro out
      have hrest := ih fun r hr => hrecs r (List.mem_cons_of_mem rec hr)
      have heq : Snapshot.asRead ((snap.streamViews types stop (rec :: recs) out).mapError .source) =
          snap.viewOfRecord types rec >>= fun view =>
            if stop.any fun n => n ≤ (out ++ [view]).length then .ok (out ++ [view], true)
            else Snapshot.asRead ((snap.streamViews types stop recs (out ++ [view])).mapError
              .source) := by
        rw [Snapshot.streamViews, Snapshot.viewOfRecord]
        cases snap.materialize types rec with
        | error e => rfl
        | ok view =>
            change Snapshot.asRead (Except.mapError _ (if _ then _ else _)) = if _ then _ else _
            split_ifs <;> rfl
      rw [heq, streamViews]
      refine gives_bind (viewOf_gives (hrecs rec List.mem_cons_self)) fun view _ => ?_
      split_ifs
      · exact gives_pure _
      · exact hrest _

theorem streamWindow_gives (hf : snap.view.Filed) (c : String) (w : Window) :
    Gives (CachesWell types snap p) (streamWindow types snap c w)
      (Snapshot.asRead (snap.streamWindow types c w)) := by
  rw [Snapshot.streamWindow, asRead_bind]
  refine gives_bind (streamViews_gives _ _ (fun rec hrec => ?_) []) fun out _ => gives_pure _
  rcases List.mem_flatMap.mp hrec with ⟨shape, -, hscan⟩
  exact ((Backend.mem_scanType hf _ _).mp hscan).1

theorem indexedWindow_gives (hf : snap.view.Filed) (c : String) (order : Option (String × Bool))
    (w : Window) : Gives (CachesWell types snap p) (indexedWindow types snap p c order w)
      (Snapshot.asRead (snap.indexedWindow types p c order w)) := by
  unfold indexedWindow Snapshot.indexedWindow
  simp only [asRead_bind, candidates_fenced, bind_assoc]
  refine gives_bind (classIndexes_gives c) fun ci hci => ?_
  exact gives_bind (fence_gives (asRead_ok_iff.mp hci) _) fun candidate _ =>
    window_gives hf ci candidate none order w

theorem all_gives (hf : snap.view.Filed) (c : String) (limit : Option ℤ) (offset : ℤ)
    (order : Option OrderBy) : Gives (CachesWell types snap p)
      (all types snap p c limit offset order)
      (Snapshot.asRead (snap.allWindow types p c limit offset order)) := by
  unfold all Snapshot.allWindow
  rw [asRead_bind]
  refine gives_bind (gives_reading _) fun w _ => ?_
  by_cases hdenied : ((types.known c).isNone && !isRoot p && snap.noLiveClassFenced types c) = true
  · simp only [hdenied, if_true]
    exact gives_throw _
  · simp only [hdenied, if_false, Bool.false_eq_true]
    cases types.known c with
    | none =>
        cases order with
        | none => exact streamWindow_gives hf c w
        | some o => exact gives_throw _
    | some ti =>
        cases order with
        | none =>
            by_cases hprot : ti.isProtected = true
            · simp only [hprot, if_true]
              exact indexedWindow_gives hf c none w
            · simp only [hprot]
              exact streamWindow_gives hf c w
        | some o =>
            simp only [asRead_bind]
            exact gives_bind (gives_reading _) fun parsed _ =>
              indexedWindow_gives hf c (some parsed) w

end Gives

end Bound

section Calls

variable {types : Types} {snap : Snapshot} {p : Principal}

/-- A call comes to what the read comes to, whatever is cached. -/
theorem call_gives (hf : snap.view.Filed) (call : Call) : Gives (CachesWell types snap p)
    (performCall types snap p call) (readOf types snap p call) := by
  cases call with
  | root => exact gives_map (Bound.root_gives hf) _
  | get oid => exact gives_map (Bound.get_gives hf oid) _
  | getMany oids => exact gives_map (Bound.getMany_gives hf oids) _
  | openBlob target field => exact gives_map (Bound.openBlob_gives hf target field) _
  | query c cond limit offset order =>
      exact gives_map (Bound.query_gives hf c cond limit offset order) _
  | count c cond => exact gives_map (Bound.count_gives hf c cond) _
  | all c limit offset order => exact gives_map (Bound.all_gives hf c limit offset order) _
  | incoming oid => exact gives_map (Bound.incoming_gives hf oid) _

namespace Siblings

/-- Every cache of the core and of each handle holds what would be made now. A call
    on one handle adds to the core, which the others then find. -/
structure Well (types : Types) (snap : Snapshot) (s : Siblings) : Prop where
  core : CoreWell types snap s.core
  handles : ∀ handle ∈ s.handles, ReadableWell types snap handle.principal handle.readable

theorem fresh_well (p : Principal) : (fresh p).Well types snap := by
  refine ⟨⟨?_, ?_, ?_⟩, ?_⟩
  · intro oid v h
    cases h
  · intro c ci h
    cases h
  · intro rev h
    cases h
  · intro handle hhandle c rb h
    rw [List.mem_singleton.mp hhandle] at h
    cases h

variable {s : Siblings}

/-- What a call on a handle comes to, and that it leaves the caches well. -/
theorem ask_spec (hf : snap.view.Filed) (hs : s.Well types snap) (h : Nat) (call : Call) :
    (s.ask types snap h call).1 =
        (s.handles[h]?.map fun handle => readOf types snap handle.principal call) ∧
      (s.ask types snap h call).2.Well types snap := by
  unfold ask
  cases hget : s.handles[h]? with
  | none => exact ⟨rfl, hs⟩
  | some handle =>
      have hgives : Gives (CachesWell types snap handle.principal)
          (performCall types snap handle.principal call)
          (readOf types snap handle.principal call) := call_gives hf call
      have hbound : CachesWell types snap handle.principal ⟨s.core, handle.readable⟩ :=
        ⟨hs.core, hs.handles handle (List.mem_of_getElem? hget)⟩
      have hkeeps := hgives.keeps _ hbound
      refine ⟨congrArg some (hgives.gives _ hbound), hkeeps.core, fun other hother => ?_⟩
      rcases List.mem_or_eq_of_mem_set hother with hother | rfl
      · exact hs.handles other hother
      · exact hkeeps.readable

theorem run_well (hf : snap.view.Filed) (events : List SiblingEvent) :
    ∀ s : Siblings, s.Well types snap → (s.run types snap events).Well types snap := by
  induction events with
  | nil => exact fun s hs => hs
  | cons event events ih =>
      intro s hs
      refine ih _ ?_
      cases event with
      | ask h call => exact (ask_spec hf hs h call).2
      | forPrincipal p =>
          refine ⟨hs.core, fun handle hhandle => ?_⟩
          rcases List.mem_append.mp hhandle with hhandle | hhandle
          · exact hs.handles handle hhandle
          · rw [List.mem_singleton.mp hhandle]
            intro c rb h
            cases h

/-- A call comes to what it comes to on a snapshot of its own. -/
theorem ask_fresh (hf : snap.view.Filed) (hs : s.Well types snap) {h : Nat}
    {handle : BoundHandle} (hhandle : s.handles[h]? = some handle) (call : Call) :
    (s.ask types snap h call).1 = ((fresh handle.principal).ask types snap 0 call).1 := by
  rw [(ask_spec hf hs h call).1, (ask_spec hf (fresh_well _) 0 call).1, hhandle]
  rfl

end Siblings

end Calls

namespace Watched

/-- Handles that share a core do not interfere. On a snapshot of any store a run comes to,
    handles for any principals are bound and called in any order, the views of one passed to
    another; what a call on a handle comes to, it comes to on a fresh snapshot that its
    principal has alone. -/
theorem siblings_apart (types : Types) (attached : Bool) (events : List Event) (p : Principal)
    (calls : List SiblingEvent) (h : Nat) (handle : BoundHandle) (call : Call) :
    let w := ((begin types attached).run events).world
    let snap := w.store.snapshot
    let s := (Siblings.fresh p).run w.types snap calls
    s.handles[h]? = some handle →
      (s.ask w.types snap h call).1 =
        ((Siblings.fresh handle.principal).ask w.types snap 0 call).1 := by
  intro w snap s hhandle
  rcases run_coherent types attached events with ⟨kind, hc⟩
  have hf : snap.view.Filed := hc.store.storage.filed
  exact Siblings.ask_fresh hf (Siblings.run_well hf calls _ (Siblings.fresh_well p)) hhandle call

/-- The owner of a note has it in the cache of the core; the next handle is judged anew. -/
theorem siblings_apart_on_note :
    let w := ((begin noteTypes false).run [.act noteOwner (.construct "note" []),
      .act noteOwner (.store 0), .act noteOwner (.commit false)]).world
    let snap := w.store.snapshot
    let stranger : Principal := { uid := 6, memberships := Dict.empty }
    let s := (Siblings.fresh noteOwner).run w.types snap
      [.ask 0 (.all "note" none 0 none), .forPrincipal stranger]
    (s.ask w.types snap 1 (.getMany [oidBase])).1 =
      ((Siblings.fresh stranger).ask w.types snap 0 (.getMany [oidBase])).1 := by
  intro w snap stranger s
  exact siblings_apart noteTypes false _ noteOwner _ 1 { principal := stranger } (.getMany [oidBase]) rfl

end Watched

end DataCrystal
