import DataCrystal.Steps
import DataCrystal.Index.Holders

/-!
# Coherence

What holds between a store and its storage after any run: an OID below the
high-water mark belongs to one class for good, an OID at or above it belongs to
a new entity in the buffer, and every place that names an OID agrees with that.

`kind` is the class of every OID below the mark. It is not in the state, since
a deleted record leaves no trace of its class; an invariant says there is one.

The parts of the invariant follow what it is about: storage and the type
dictionary, the objects and the buffers, the unique maps of the indexes, and the
root. A step changes one or two of them, and the rest carries over.

## Main definitions

* `StorageOk`, `ObjectsOk`, `HoldersOk`, `RootOk`: The parts.
* `Coherent`: All of them.

## Theorems

* `edit_coherent`: Every `Edit` step keeps a store coherent.
-/

namespace DataCrystal

open ClassIndexes

namespace Store

/-- Below the mark, and of the given class: an OID that storage has handed out, for
    an entity of that class. -/
def Known (kind : Nat → String) (s : Store) (c : String) (k : Nat) : Prop :=
  k < s.backend.marks.nextOid ∧ c = kind k

/-- Records and shapes agree with the classes of the OIDs. `kind` says which class
    an OID was ever given to: a record under it is of a shape of that class, and the
    counters are above all that is in use. -/
structure StorageOk (kind : Nat → String) (s : Store) : Prop where
  allocOid : s.backend.marks.nextOid ≤ s.alloc.nextOid
  rowsKnown : ∀ row ∈ s.backend.types, row ∈ s.typeRows
  rowsUnique : ∀ row ∈ s.typeRows, ∀ row' ∈ s.typeRows, row.1 = row'.1 → row = row'
  rowsBelow : ∀ row ∈ s.typeRows, row.1 < s.alloc.nextCid
  marksBelow : ∀ row ∈ s.backend.types, row.1 < s.backend.marks.nextCid
  durable : ∀ cid ∈ s.durableCids, ∃ row ∈ s.backend.types, row.1 = cid
  records : ∀ k rec, s.backend.objects.get? k = some rec →
    rec.oid = k ∧ k < s.backend.marks.nextOid ∧ ∃ names, (rec.cid, kind k, names) ∈ s.backend.types

/-- Objects and buffers agree with the classes of the OIDs. An object without an OID
    is new, one that is new and has an OID waits in the buffer of the new ones, and
    a settled one is of the class its OID was given to. -/
structure ObjectsOk (kind : Nat → String) (s : Store) : Prop where
  bounded : ∀ o k, (s.heap.get o).oid = some k → o < s.heap.size
  fresh : ∀ o, (s.heap.get o).oid = none → (s.heap.get o).state = .new
  isNew : ∀ k o, s.new.get? k = some o →
    (s.heap.get o).oid = some k ∧ (s.heap.get o).state = .new ∧ s.backend.marks.nextOid ≤ k
  newOf : ∀ o k, (s.heap.get o).state = .new → (s.heap.get o).oid = some k →
    s.new.get? k = some o ∧ k < s.alloc.nextOid
  settled : ∀ o k, (s.heap.get o).state = .clean ∨ (s.heap.get o).state = .dirty →
    (s.heap.get o).oid = some k → Known kind s (s.heap.get o).cls k
  isDirty : ∀ k o, s.dirty.get? k = some o →
    (s.heap.get o).oid = some k ∧ (s.heap.get o).state = .dirty
  isDeleted : ∀ k c obj, s.deleted.get? k = some (c, obj) →
    Known kind s c k ∧ ∀ o, obj = some o → (s.heap.get o).oid = some k
  registered : ∀ k o, s.registry.get? k = some o → (s.heap.get o).oid = some k

/-- The unique maps name OIDs of their own class, in the indexes that are built and
    in the blobs that are still to be loaded. A lookup by key therefore never hands
    out an entity of another class. -/
structure HoldersOk (kind : Nat → String) (s : Store) : Prop where
  built : ∀ c ci, s.index.byCls.get? c = some ci → ci.HoldersIn (Known kind s c)
  cached : ∀ blobs c blob, s.index.cacheBlobs = some blobs → blobs.get? c = some blob →
    blob.HoldersIn (Known kind s c)

/-- The root is a holder of the root value, new only while it is pinned. The root on
    storage is a holder in any case, so a boot finds one. -/
structure RootOk (kind : Nat → String) (s : Store) : Prop where
  root : ∀ k, s.rootOid = some k → Known kind s rootCls k ∨
    (s.rootHolder.isSome ∧ ∃ o, s.new.get? k = some o ∧ (s.heap.get o).cls = rootCls)
  durableRoot : ∀ k, s.backend.marks.rootOid = some k → Known kind s rootCls k

/-- A store that agrees with its storage. Every operation keeps this, and so does
    every commit that goes through; the four parts are about the records, the
    objects, the unique maps and the root. -/
structure Coherent (kind : Nat → String) (s : Store) : Prop where
  storage : StorageOk kind s
  objects : ObjectsOk kind s
  holders : HoldersOk kind s
  root : RootOk kind s

variable {types : Types} {p : Principal} {kind : Nat → String} {s t : Store}

/-- The object is of the same class, under the same OID and in the same state. -/
def SameLife (e e' : Entity) : Prop := e'.cls = e.cls ∧ e'.oid = e.oid ∧ e'.state = e.state

theorem get_modifyEntity (s : Store) (o : Nat) (f : Entity → Entity) (n : Nat) :
    (s.modifyEntity o f).heap.get n = if n = o then f (s.heap.get o) else s.heap.get n :=
  Heap.get_set _ _ _ _

@[simp]
theorem get_modifyEntity_self (s : Store) (o : Nat) (f : Entity → Entity) :
    (s.modifyEntity o f).heap.get o = f (s.heap.get o) := Heap.get_set_self _ _ _

theorem get_modifyEntity_ne (s : Store) {o n : Nat} (f : Entity → Entity) (h : n ≠ o) :
    (s.modifyEntity o f).heap.get n = s.heap.get n := Heap.get_set_ne _ _ h

theorem sameLife_modify {f : Entity → Entity} (hf : ∀ e, SameLife e (f e)) (s : Store) (o n : Nat) :
    SameLife (s.heap.get n) ((s.modifyEntity o f).heap.get n) := by
  rw [get_modifyEntity]
  split
  · rename_i h
    rw [h]
    exact hf _
  · exact ⟨rfl, rfl, rfl⟩

/-- A new entity is untracked again. -/
theorem detach_life (e : Nat × Nat) (s : Store) (n : Nat) :
    (s.detach e).heap.size = s.heap.size ∧ (SameLife (s.heap.get n) ((s.detach e).heap.get n) ∨
      ((s.detach e).heap.get n).oid = none ∧ ((s.detach e).heap.get n).state = .new) := by
  have hone : SameLife (s.heap.get n) ((s.modifyEntity e.2 fun ent =>
        { ent with oid := none, state := .new, stampedBy := none }).heap.get n) ∨
      ((s.modifyEntity e.2 fun ent =>
        { ent with oid := none, state := .new, stampedBy := none }).heap.get n).oid = none ∧
      ((s.modifyEntity e.2 fun ent =>
        { ent with oid := none, state := .new, stampedBy := none }).heap.get n).state = .new := by
    -- First without the labels, which do not belong to the life of an object.
    rw [get_modifyEntity]
    by_cases hn : n = e.2
    · rw [if_pos hn]
      exact Or.inr ⟨rfl, rfl⟩
    · rw [if_neg hn]
      exact Or.inl ⟨rfl, rfl, rfl⟩
  unfold detach
  dsimp only
  split
  · rename_i l _
    refine ⟨rfl, ?_⟩
    have hlabels := sameLife_modify (f := fun ent : Entity => { ent with labels := l })
      (fun _ => ⟨rfl, rfl, rfl⟩) (s.modifyEntity e.2 fun ent =>
        { ent with oid := none, state := .new, stampedBy := none }) e.2 n
    rcases hone with hsame | ⟨hoid, hstate⟩
    · exact Or.inl ⟨hlabels.1.trans hsame.1, hlabels.2.1.trans hsame.2.1,
        hlabels.2.2.trans hsame.2.2⟩
    · exact Or.inr ⟨hlabels.2.1.trans hoid, hlabels.2.2.trans hstate⟩
  · exact ⟨rfl, hone⟩

theorem sameCls_setState (s : Store) (o : Nat) (st : EntityState) (n : Nat) :
    ((s.setState o st).heap.get n).cls = (s.heap.get n).cls := by
  rw [setState, get_modifyEntity]
  split
  · rename_i h
    rw [h]
  · rfl

theorem sameLife_assign (e : Entity) (name : String) (v : Val LiveRef) :
    SameLife e (e.assign name v) := by
  unfold Entity.assign
  split <;> exact ⟨rfl, rfl, rfl⟩

/-- Nothing about the storage side has changed, but OIDs may have been handed
    out. -/
theorem StorageOk.congr (h : StorageOk kind s) (hb : t.backend = s.backend)
    (hr : t.typeRows = s.typeRows) (hd : t.durableCids = s.durableCids)
    (ho : s.alloc.nextOid ≤ t.alloc.nextOid) (hc : t.alloc.nextCid = s.alloc.nextCid) :
    StorageOk kind t := by
  constructor
  · rw [hb]
    exact h.allocOid.trans ho
  · rw [hb, hr]
    exact h.rowsKnown
  · rw [hr]
    exact h.rowsUnique
  · rw [hr, hc]
    exact h.rowsBelow
  · rw [hb]
    exact h.marksBelow
  · rw [hb, hd]
    exact h.durable
  · rw [hb]
    exact h.records

/-- No object has changed its place in the lifecycle, and the buffers hold what
    they held or less. -/
theorem ObjectsOk.mono (h : ObjectsOk kind s) (hsize : s.heap.size ≤ t.heap.size)
    (hlife : ∀ o, SameLife (s.heap.get o) (t.heap.get o))
    (hnew : ∀ k o, t.new.get? k = some o ↔ s.new.get? k = some o)
    (hdirty : ∀ k o, t.dirty.get? k = some o → s.dirty.get? k = some o)
    (hdeleted : ∀ k d, t.deleted.get? k = some d → s.deleted.get? k = some d)
    (hreg : ∀ k o, t.registry.get? k = some o → (s.heap.get o).oid = some k)
    (hmarks : t.backend.marks = s.backend.marks) (halloc : s.alloc.nextOid ≤ t.alloc.nextOid) :
    ObjectsOk kind t := by
  -- Clause by clause: every fact about t is read off the same fact about s.
  constructor
  · intro o k ho
    rw [(hlife o).2.1] at ho
    exact Nat.lt_of_lt_of_le (h.bounded o k ho) hsize
  · intro o ho
    rw [(hlife o).2.1] at ho
    rw [(hlife o).2.2]
    exact h.fresh o ho
  · intro k o hk
    rw [(hlife o).2.1, (hlife o).2.2, hmarks]
    exact h.isNew k o ((hnew k o).mp hk)
  · intro o k hstate ho
    rw [(hlife o).2.2] at hstate
    rw [(hlife o).2.1] at ho
    -- The OIDs handed out in s are below those of t.
    rw [hnew]
    exact ⟨(h.newOf o k hstate ho).1, Nat.lt_of_lt_of_le (h.newOf o k hstate ho).2 halloc⟩
  · intro o k hstate ho
    rw [(hlife o).2.2] at hstate
    rw [(hlife o).2.1] at ho
    rw [Known, (hlife o).1, hmarks]
    exact h.settled o k hstate ho
  · intro k o hk
    rw [(hlife o).2.1, (hlife o).2.2]
    exact h.isDirty k o (hdirty k o hk)
  · intro k c obj hk
    rw [Known, hmarks]
    refine ⟨(h.isDeleted k c obj (hdeleted k _ hk)).1, fun o ho => ?_⟩
    rw [(hlife o).2.1]
    exact (h.isDeleted k c obj (hdeleted k _ hk)).2 o ho
  · intro k o hk
    rw [(hlife o).2.1]
    exact hreg k o hk

/-- No object has changed its place in the lifecycle, and no buffer has. -/
theorem ObjectsOk.congr (h : ObjectsOk kind s) (hsize : s.heap.size ≤ t.heap.size)
    (hlife : ∀ o, SameLife (s.heap.get o) (t.heap.get o)) (hnew : t.new = s.new)
    (hdirty : t.dirty = s.dirty) (hdeleted : t.deleted = s.deleted)
    (hreg : ∀ k o, t.registry.get? k = some o → s.registry.get? k = some o)
    (hmarks : t.backend.marks = s.backend.marks) (halloc : s.alloc.nextOid ≤ t.alloc.nextOid) :
    ObjectsOk kind t := by
  refine h.mono hsize hlife (fun k o => ?_) (fun k o hk => ?_) (fun k d hk => ?_)
    (fun k o hk => h.registered k o (hreg k o hk)) hmarks halloc
  · rw [hnew]
  · rwa [hdirty] at hk
  · rwa [hdeleted] at hk

theorem HoldersOk.congr (h : HoldersOk kind s) (hi : t.index = s.index)
    (hmarks : t.backend.marks = s.backend.marks) : HoldersOk kind t := by
  constructor
  · intro c ci hci f key k hk
    rw [Known, hmarks]
    rw [hi] at hci
    exact h.built c ci hci f key k hk
  · intro blobs c blob hblobs hblob f key k hk
    rw [Known, hmarks]
    rw [hi] at hblobs
    exact h.cached blobs c blob hblobs hblob f key k hk

theorem RootOk.congr (h : RootOk kind s) (hroot : t.rootOid = s.rootOid)
    (hholder : t.rootHolder = s.rootHolder) (hmarks : t.backend.marks = s.backend.marks)
    (hnew : ∀ k o, s.rootOid = some k → s.new.get? k = some o →
      t.new.get? k = some o ∧ (t.heap.get o).cls = (s.heap.get o).cls) : RootOk kind t := by
  constructor
  · intro k hk
    rw [hroot] at hk
    rw [Known, hmarks, hholder]
    rcases h.root k hk with hknown | ⟨hsome, o, ho, hcls⟩
    · exact Or.inl hknown
    · exact Or.inr ⟨hsome, o, (hnew k o hk ho).1, (hnew k o hk ho).2.trans hcls⟩
  · intro k hk
    rw [hmarks] at hk
    rw [Known, hmarks]
    exact h.durableRoot k hk

/-- A change that touches neither buffers nor storage, and no object's place in
    the lifecycle. -/
theorem Coherent.congr (h : Coherent kind s) (hb : t.backend = s.backend)
    (hr : t.typeRows = s.typeRows) (hd : t.durableCids = s.durableCids) (ha : t.alloc = s.alloc)
    (hsize : s.heap.size ≤ t.heap.size) (hlife : ∀ o, SameLife (s.heap.get o) (t.heap.get o))
    (hnew : t.new = s.new) (hdirty : t.dirty = s.dirty) (hdeleted : t.deleted = s.deleted)
    (hreg : ∀ k o, t.registry.get? k = some o → s.registry.get? k = some o)
    (hi : t.index = s.index) (hroot : t.rootOid = s.rootOid)
    (hholder : t.rootHolder = s.rootHolder) : Coherent kind t where
  storage := h.storage.congr hb hr hd (by rw [ha]) (by rw [ha])
  objects := h.objects.congr hsize hlife hnew hdirty hdeleted hreg (by rw [hb]) (by rw [ha])
  holders := h.holders.congr hi (by rw [hb])
  root := h.root.congr hroot hholder (by rw [hb]) fun k o _ ho =>
    ⟨by rw [hnew]; exact ho, (hlife o).1⟩

/-- Only the indexes have changed. -/
theorem Coherent.withIndex (h : Coherent kind s) {m : IndexManager}
    (hm : HoldersOk kind { s with index := m }) : Coherent kind { s with index := m } where
  storage := h.storage.congr rfl rfl rfl le_rfl rfl
  objects := h.objects.congr le_rfl (fun _ => ⟨rfl, rfl, rfl⟩) rfl rfl rfl (fun _ _ hk => hk) rfl
    le_rfl
  holders := hm
  root := h.root.congr rfl rfl rfl fun _ _ _ hn => ⟨hn, rfl⟩

section Steps

theorem get_adopt (s : Store) (o n : Nat) : (s.adopt o).heap.get n =
    if n = o then { s.heap.get o with oid := some s.alloc.nextOid } else s.heap.get n :=
  Heap.get_set _ _ _ _

/-- A new object takes an OID at the allocator's mark. -/
theorem objectsOk_adopt (h : Coherent kind s) (o : Nat) (hsize : o < s.heap.size)
    (hoid : (s.heap.get o).oid = none) : ObjectsOk kind (s.adopt o) := by
  -- Only o changes, which had no OID.
  have hne : ∀ n k, (s.heap.get n).oid = some k → (s.adopt o).heap.get n = s.heap.get n := by
    intro n k hk
    rw [get_adopt, if_neg]
    rintro rfl
    rw [hoid] at hk
    simp at hk
  have hself : (s.adopt o).heap.get o = { s.heap.get o with oid := some s.alloc.nextOid } := by
    rw [get_adopt, if_pos rfl]
  have hfresh : (s.heap.get o).state = .new := h.objects.fresh o hoid
  constructor
  · intro n k hk
    by_cases hn : n = o
    · rw [hn]
      exact hsize
    · rw [get_adopt, if_neg hn] at hk
      exact h.objects.bounded n k hk
  · intro n hn
    by_cases hno : n = o
    · rw [hno, hself] at hn
      simp at hn
    · rw [get_adopt, if_neg hno] at hn ⊢
      exact h.objects.fresh n hn
  -- The new buffer has one more entry, under the next OID.
  · intro k n hk
    by_cases hkn : k = s.alloc.nextOid
    · rw [hkn] at hk ⊢
      have hno : o = n := Option.some.inj ((get?_new_adopt s o).symm.trans hk)
      rw [← hno, hself]
      exact ⟨rfl, hfresh, h.storage.allocOid⟩
    · have hk' : s.new.get? k = some n := (Dict.get?_set_ne _ _ hkn).symm.trans hk
      rw [hne n k (h.objects.isNew k n hk').1]
      exact h.objects.isNew k n hk'
  -- O is buffered under the OID it was given, which is now below the next one.
  · intro n k hstate hk
    by_cases hno : n = o
    · rw [hno, hself] at hk
      have hkn : s.alloc.nextOid = k := Option.some.inj hk
      rw [hno, ← hkn]
      exact ⟨get?_new_adopt s o, Nat.lt_succ_self _⟩
    · rw [get_adopt, if_neg hno] at hstate hk
      have hold := h.objects.newOf n k hstate hk
      exact ⟨(Dict.get?_set_ne _ _ (Nat.ne_of_lt hold.2)).trans hold.1,
        Nat.lt_succ_of_lt hold.2⟩
  -- O is NEW, so there is nothing to show about it.
  · intro n k hstate hk
    by_cases hno : n = o
    · rw [hno, hself, hfresh] at hstate
      simp at hstate
    · rw [get_adopt, if_neg hno] at hstate hk ⊢
      exact h.objects.settled n k hstate hk
  · intro k n hk
    rw [hne n k (h.objects.isDirty k n hk).1]
    exact h.objects.isDirty k n hk
  · intro k c obj hk
    refine ⟨(h.objects.isDeleted k c obj hk).1, fun n hn => ?_⟩
    have hoidn := (h.objects.isDeleted k c obj hk).2 n hn
    rw [hne n k hoidn]
    exact hoidn
  · intro k n hk
    rw [hne n k (h.objects.registered k n hk)]
    exact h.objects.registered k n hk

theorem grow_coherent (hstep : Grow types p s t) (h : Coherent kind s) : Coherent kind t := by
  cases hstep with
  | adopt o hsize hoid huid =>
      refine ⟨h.storage.congr rfl rfl rfl (Nat.le_succ _) rfl, objectsOk_adopt h o hsize hoid,
        h.holders.congr rfl rfl, h.root.congr rfl rfl rfl fun k n _ hn => ?_⟩
      have hlt := (h.objects.newOf n k (h.objects.isNew k n hn).2.1 (h.objects.isNew k n hn).1).2
      refine ⟨(Dict.get?_set_ne _ _ (Nat.ne_of_lt hlt)).trans hn, ?_⟩
      rw [get_adopt]
      split
      · rename_i hno
        rw [hno]
      · rfl
  | stamp o oid container hnew hprot =>
      have hlife := sameLife_modify (f := fun e =>
        { e with labels := s.bornLabels p o container, stampedBy := some p.uid })
        (fun _ => ⟨rfl, rfl, rfl⟩) s o
      exact h.congr rfl rfl rfl rfl le_rfl hlife rfl rfl rfl (fun _ _ h => h) rfl rfl rfl

/-- A new object is either fresh or a shell of a record. -/
theorem objectsOk_push (h : ObjectsOk kind s) (e : Entity)
    (hheap : t.heap = s.heap.push e) (hnew : t.new = s.new) (hdirty : t.dirty = s.dirty)
    (hdeleted : t.deleted = s.deleted) (hmarks : t.backend.marks = s.backend.marks)
    (halloc : t.alloc = s.alloc)
    (hreg : ∀ k o, t.registry.get? k = some o → s.registry.get? k = some o ∨
      o = s.heap.size ∧ e.oid = some k)
    (hfresh : e.oid = none → e.state = .new) (hstate : e.state = .new → e.oid = none)
    (hknown : ∀ k, e.oid = some k → Known kind s e.cls k) : ObjectsOk kind t := by
  have hget : ∀ n, t.heap.get n = if n = s.heap.size then e else s.heap.get n := by
    intro n
    rw [hheap]
    exact Heap.get_push _ _ _
  have hsize : t.heap.size = s.heap.size + 1 := by rw [hheap, Heap.size_push]
  -- An object with an OID lies below the pushed one.
  have hold : ∀ n k, (s.heap.get n).oid = some k → t.heap.get n = s.heap.get n := by
    intro n k hk
    rw [hget, if_neg (Nat.ne_of_lt (h.bounded n k hk))]
  constructor
  · intro n k hk
    rw [hsize]
    by_cases hn : n = s.heap.size
    · omega
    · rw [hget, if_neg hn] at hk
      exact Nat.lt_succ_of_lt (h.bounded n k hk)
  · intro n hn
    by_cases hns : n = s.heap.size
    · rw [hget, if_pos hns] at hn ⊢
      exact hfresh hn
    · rw [hget, if_neg hns] at hn ⊢
      exact h.fresh n hn
  · intro k n hk
    rw [hnew] at hk
    rw [hold n k (h.isNew k n hk).1, hmarks]
    exact h.isNew k n hk
  -- A pushed object that is NEW has no OID.
  · intro n k hst hk
    by_cases hns : n = s.heap.size
    · rw [hget, if_pos hns] at hst hk
      rw [hstate hst] at hk
      simp at hk
    · rw [hget, if_neg hns] at hst hk
      rw [hnew, halloc]
      exact h.newOf n k hst hk
  -- A pushed object that is settled is of the class of its OID.
  · intro n k hst hk
    rw [Known, hmarks]
    by_cases hns : n = s.heap.size
    · rw [hget, if_pos hns] at hk ⊢
      exact hknown k hk
    · rw [hget, if_neg hns] at hst hk ⊢
      exact h.settled n k hst hk
  · intro k n hk
    rw [hdirty] at hk
    rw [hold n k (h.isDirty k n hk).1]
    exact h.isDirty k n hk
  · intro k c obj hk
    rw [hdeleted] at hk
    rw [Known, hmarks]
    refine ⟨(h.isDeleted k c obj hk).1, fun n hn => ?_⟩
    rw [hold n k ((h.isDeleted k c obj hk).2 n hn)]
    exact (h.isDeleted k c obj hk).2 n hn
  -- The registry gained the pushed object at most.
  · intro k n hk
    rcases hreg k n hk with hreg | ⟨hn, hoid⟩
    · rw [hold n k (h.registered k n hreg)]
      exact h.registered k n hreg
    · rw [hget, if_pos hn]
      exact hoid

/-- The class a shape id names is the class of the records filed under it. -/
theorem StorageOk.typename (h : StorageOk kind s) {k : Nat} {rec : StoredRecord} {c : String}
    (hrec : s.backend.objects.get? k = some rec) (hc : s.typenameByCid rec.cid = some c) :
    Known kind s c k := by
  rcases h.records k rec hrec with ⟨_, hlt, names, hrow⟩
  refine ⟨hlt, ?_⟩
  rw [typenameByCid, Option.map_eq_some_iff] at hc
  rcases hc with ⟨row, hfind, rfl⟩
  have hcid : row.1 = rec.cid := by simpa using List.find?_some hfind
  rw [h.rowsUnique row (List.mem_of_find?_eq_some hfind) _ (h.rowsKnown _ hrow) hcid]

theorem load_coherent (hstep : Load types s t) (h : Coherent kind s) : Coherent kind t := by
  cases hstep with
  -- An instance is made for a stored record, CLEAN and registered under its OID.
  | shell c oid rec hreg hrec hcls =>
      refine ⟨h.storage.congr rfl rfl rfl le_rfl rfl,
        objectsOk_push h.objects _ rfl rfl rfl rfl rfl rfl ?_ (fun hc => by simp at hc)
          (fun hc => by simp at hc) ?_, h.holders.congr rfl rfl,
        h.root.congr rfl rfl rfl fun k n _ hn => ⟨hn, ?_⟩⟩
      · intro k n hk
        by_cases hkn : k = oid
        · rw [hkn] at hk ⊢
          have hn : s.heap.size = n := Option.some.inj ((Dict.get?_set_self _ _ _).symm.trans hk)
          exact Or.inr ⟨hn.symm, rfl⟩
        · exact Or.inl ((Dict.get?_set_ne _ _ hkn).symm.trans hk)
      · intro k hk
        rw [← Option.some.inj hk]
        exact h.storage.typename hrec hcls
      · have hlt := h.objects.bounded n k (h.objects.isNew k n hn).1
        exact congrArg Entity.cls ((Heap.get_push _ _ _).trans (if_neg (Nat.ne_of_lt hlt)))
  -- A field is filled, which is no part of the invariant.
  | fill o name v =>
      exact h.congr rfl rfl rfl rfl le_rfl
        (sameLife_modify (fun e => sameLife_assign e name v) s o) rfl rfl rfl (fun _ _ h => h) rfl
        rfl rfl
  -- An instance that could not be filled leaves the registry.
  | unregister o =>
      rw [unregister]
      split
      · refine h.congr rfl rfl rfl rfl le_rfl (fun _ => ⟨rfl, rfl, rfl⟩) rfl rfl rfl ?_ rfl rfl rfl
        intro k n hk
        rw [Dict.get?_erase] at hk
        split at hk
        · simp at hk
        · exact hk
      · exact h

/-- One object with an OID moves on in the lifecycle, and the buffers with it. -/
theorem objectsOk_setState (h : ObjectsOk kind s) (st : EntityState) {o oid : Nat}
    (hoid : (s.heap.get o).oid = some oid) (hst : st ≠ .new)
    (hknown : st = .clean ∨ st = .dirty → Known kind s (s.heap.get o).cls oid)
    (hheap : t.heap = (s.setState o st).heap) (hmarks : t.backend.marks = s.backend.marks)
    (halloc : t.alloc = s.alloc)
    (hreg : ∀ k n, t.registry.get? k = some n → s.registry.get? k = some n)
    (hnew : ∀ k n, t.new.get? k = some n ↔ s.new.get? k = some n ∧ n ≠ o)
    (hdirty : ∀ k n, t.dirty.get? k = some n →
      s.dirty.get? k = some n ∧ n ≠ o ∨ k = oid ∧ n = o ∧ st = .dirty)
    (hdeleted : ∀ k c obj, t.deleted.get? k = some (c, obj) →
      s.deleted.get? k = some (c, obj) ∨ k = oid ∧ obj = some o ∧ Known kind s c oid) :
    ObjectsOk kind t := by
  have hget : ∀ n, t.heap.get n =
      if n = o then { s.heap.get o with state := st } else s.heap.get n := by
    intro n
    rw [hheap]
    exact get_modifyEntity s o _ n
  have hne : ∀ n, n ≠ o → t.heap.get n = s.heap.get n := fun n hn => by rw [hget, if_neg hn]
  have hself : t.heap.get o = { s.heap.get o with state := st } := by rw [hget, if_pos rfl]
  -- States change, and OIDs do not.
  have hoids : ∀ n, (t.heap.get n).oid = (s.heap.get n).oid := by
    intro n
    by_cases hn : n = o
    · rw [hn, hself]
    · rw [hne n hn]
  have hsize : t.heap.size = s.heap.size := by rw [hheap]; rfl
  constructor
  · intro n k hk
    rw [hoids] at hk
    rw [hsize]
    exact h.bounded n k hk
  -- An object without an OID is not o.
  · intro n hn
    rw [hoids] at hn
    have hno : n ≠ o := by
      rintro rfl
      rw [hoid] at hn
      simp at hn
    rw [hne n hno]
    exact h.fresh n hn
  -- O leaves the new buffer, if it was in there.
  · intro k n hk
    rcases (hnew k n).mp hk with ⟨hk, hno⟩
    rw [hne n hno, hmarks]
    exact h.isNew k n hk
  · intro n k hstate hk
    have hno : n ≠ o := by
      rintro rfl
      rw [hself] at hstate
      exact hst hstate
    rw [hne n hno] at hstate hk
    rw [hnew, halloc]
    exact ⟨⟨(h.newOf n k hstate hk).1, hno⟩, (h.newOf n k hstate hk).2⟩
  -- O is settled now, and hknown says that its OID is of its class.
  · intro n k hstate hk
    rw [Known, hmarks]
    by_cases hno : n = o
    · rw [hno, hself] at hstate hk ⊢
      have hkoid : oid = k := Option.some.inj (hoid.symm.trans hk)
      rw [← hkoid]
      exact hknown hstate
    · rw [hne n hno] at hstate hk ⊢
      exact h.settled n k hstate hk
  -- What is dirty was so before, or it is o.
  · intro k n hk
    rcases hdirty k n hk with ⟨hk, hno⟩ | ⟨rfl, rfl, rfl⟩
    · rw [hne n hno]
      exact h.isDirty k n hk
    · rw [hself]
      exact ⟨hoid, rfl⟩
  -- What is deleted was so before, or it is o under its own OID.
  · intro k c obj hk
    rw [Known, hmarks]
    rcases hdeleted k c obj hk with hk | ⟨rfl, rfl, hc⟩
    · refine ⟨(h.isDeleted k c obj hk).1, fun n hn => ?_⟩
      rw [hoids]
      exact (h.isDeleted k c obj hk).2 n hn
    · refine ⟨hc, fun n hn => ?_⟩
      rw [hoids, ← Option.some.inj hn]
      exact hoid
  · intro k n hk
    rw [hoids]
    exact h.registered k n (hreg k n hk)

/-- Two buffered or registered objects under one OID: what is kept of a buffer
    when the OID leaves it. -/
theorem get?_erase_some {κ α : Type} [DecidableEq κ] {d : Dict κ α} {oid k : κ} {n : α}
    (h : (d.erase oid).get? k = some n) : d.get? k = some n ∧ k ≠ oid := by
  rw [Dict.get?_erase] at h
  split at h
  · simp at h
  · rename_i hk
    exact ⟨h, hk⟩

theorem objectsOk_onFirstWrite (h : ObjectsOk kind s) (o : Nat)
    (hstate : (s.heap.get o).state = .clean) : ObjectsOk kind (s.onFirstWrite o) := by
  cases hoid : (s.heap.get o).oid with
  -- An object without an OID is NEW, so it is not CLEAN.
  | none =>
      have hnew := h.fresh o hoid
      rw [hstate] at hnew
      simp at hnew
  | some oid =>
      simp only [onFirstWrite, hoid]
      refine objectsOk_setState h .dirty hoid (by decide)
        (fun _ => h.settled o oid (Or.inl hstate) hoid) rfl rfl rfl (fun _ _ hk => hk) ?_ ?_
        fun k c obj hk => Or.inl hk
      -- O is CLEAN, so it is not in the new buffer.
      · intro k n
        refine ⟨fun hk => ⟨hk, ?_⟩, fun hk => hk.1⟩
        rintro rfl
        have hnew := (h.isNew k n hk).2.1
        rw [hstate] at hnew
        simp at hnew
      -- The dirty buffer has o under its own OID; under another OID it has another object.
      · intro k n hk
        by_cases hkoid : k = oid
        · rw [hkoid] at hk ⊢
          exact Or.inr ⟨rfl, (Option.some.inj ((Dict.get?_set_self _ _ _).symm.trans hk)).symm, rfl⟩
        · have hk' : s.dirty.get? k = some n := (Dict.get?_set_ne _ _ hkoid).symm.trans hk
          refine Or.inl ⟨hk', ?_⟩
          rintro rfl
          exact hkoid (Option.some.inj ((h.isDirty k n hk').1.symm.trans hoid))

theorem objectsOk_cancelInsert (h : ObjectsOk kind s) {o oid : Nat}
    (hstate : (s.heap.get o).state = .new) (hoid : (s.heap.get o).oid = some oid) :
    ObjectsOk kind (s.cancelInsert o oid) := by
  have hnew := (h.newOf o oid hstate hoid).1
  refine objectsOk_setState h .deleted hoid (by decide) (by simp) rfl rfl rfl
    (fun _ _ hk => hk) ?_ ?_ fun k c obj hk => Or.inl hk
  · intro k n
    rw [cancelInsert, Dict.get?_erase]
    constructor
    · intro hk
      split at hk
      · simp at hk
      · rename_i hkoid
        refine ⟨hk, ?_⟩
        rintro rfl
        exact hkoid (Option.some.inj ((h.isNew k n hk).1.symm.trans hoid))
    · rintro ⟨hk, hno⟩
      rw [if_neg]
      · exact hk
      · rintro rfl
        exact hno (Option.some.inj (hk.symm.trans hnew))
  · intro k n hk
    refine Or.inl ⟨(get?_erase_some hk).1, ?_⟩
    rintro rfl
    have hdirty := (h.isDirty k n (get?_erase_some hk).1).2
    rw [hstate] at hdirty
    simp at hdirty

theorem objectsOk_bufferDelete (h : ObjectsOk kind s) {obj : Option Nat} {oid : Nat} {c : String}
    (hknown : Known kind s c oid)
    (hobj : ∀ o, obj = some o → (s.heap.get o).oid = some oid ∧ (s.heap.get o).state ≠ .new) :
    ObjectsOk kind (s.bufferDelete obj oid c) := by
  have hdeleted : ∀ k d ob, (s.deleted.set oid (c, obj)).get? k = some (d, ob) →
      s.deleted.get? k = some (d, ob) ∨ k = oid ∧ ob = obj ∧ Known kind s d oid := by
    intro k d ob hk
    by_cases hkoid : k = oid
    · rw [hkoid] at hk ⊢
      have heq : (c, obj) = (d, ob) := Option.some.inj ((Dict.get?_set_self _ _ _).symm.trans hk)
      cases heq
      exact Or.inr ⟨rfl, rfl, hknown⟩
    · exact Or.inl ((Dict.get?_set_ne _ _ hkoid).symm.trans hk)
  -- A delete by key names no instance when none is loaded.
  cases obj with
  | some o =>
      have ho := hobj o rfl
      refine objectsOk_setState h .deleted ho.1 (by decide) (by simp) rfl rfl rfl
        (fun _ _ hk => hk) ?_ ?_ hdeleted
      -- The instance is not NEW, so the new buffer does not have it.
      · intro k n
        refine ⟨fun hk => ⟨hk, ?_⟩, fun hk => hk.1⟩
        rintro rfl
        exact ho.2 (h.isNew k n hk).2.1
      -- What is still dirty is under another OID, so it is not the instance.
      · intro k n hk
        rcases get?_erase_some hk with ⟨hold, hkoid⟩
        refine Or.inl ⟨hold, ?_⟩
        rintro rfl
        exact hkoid (Option.some.inj ((h.isDirty k n hold).1.symm.trans ho.1))
  | none =>
      refine ⟨h.bounded, h.fresh, h.isNew, h.newOf, h.settled, fun k n hk =>
        h.isDirty k n (get?_erase_some hk).1, fun k d ob hk => ?_, h.registered⟩
      rcases hdeleted k d ob hk with hk | ⟨rfl, rfl, hd⟩
      · exact h.isDeleted k d ob hk
      · exact ⟨hd, fun n hn => by simp at hn⟩

theorem bufferDelete_coherent (h : Coherent kind s) {obj : Option Nat} {oid : Nat} {c : String}
    (hknown : Known kind s c oid)
    (hobj : ∀ o, obj = some o → (s.heap.get o).oid = some oid ∧ (s.heap.get o).state ≠ .new) :
    Coherent kind (s.bufferDelete obj oid c) := by
  have hobjects := objectsOk_bufferDelete h.objects hknown hobj
  cases obj with
  | some o =>
      exact ⟨h.storage.congr rfl rfl rfl le_rfl rfl, hobjects, h.holders.congr rfl rfl,
        h.root.congr rfl rfl rfl fun k n _ hn => ⟨hn, sameCls_setState s o .deleted n⟩⟩
  | none =>
      exact ⟨h.storage.congr rfl rfl rfl le_rfl rfl, hobjects, h.holders.congr rfl rfl,
        h.root.congr rfl rfl rfl fun k n _ hn => ⟨hn, rfl⟩⟩

theorem HoldersOk.setCls (h : HoldersOk kind s) {c : String} {ci : ClassIndexes}
    (hci : ci.HoldersIn (Known kind s c)) :
    HoldersOk kind { s with index := s.index.setCls c ci } := by
  refine ⟨fun d di hd => ?_, h.cached⟩
  by_cases hdc : d = c
  · rw [hdc] at hd ⊢
    have heq : ci = di := Option.some.inj ((Dict.get?_set_self _ _ _).symm.trans hd)
    rw [← heq]
    exact hci
  · exact h.built d di ((Dict.get?_set_ne _ _ hdc).symm.trans hd)

/-- What a build takes from the records of a class. -/
theorem ensures_holders (h : Coherent kind s) {m : IndexManager}
    (hstep : Ensures types s.backend s.lineageFor s.index m) :
    HoldersOk kind { s with index := m } := by
  cases hstep with
  | loaded c ci hnone hload =>
      refine h.holders.setCls ?_
      rw [IndexManager.cached] at hload
      split at hload
      · rename_i blob hblob
        rcases Option.bind_eq_some_iff.mp hblob with ⟨blobs, hblobs, hblob⟩
        exact holdersIn_load hload (h.holders.cached blobs c blob hblobs hblob)
      · simp at hload
  | built c ci hnone hload hbuild =>
      refine h.holders.setCls (holdersIn_build hbuild fun shape hshape rec hrec => ?_)
      have hfiled : s.backend.Filed := fun k r hr => (h.storage.records k r hr).1
      rcases (Backend.mem_scanType hfiled shape.1 rec).mp hrec with ⟨hget, hcid⟩
      rcases List.mem_map.mp hshape with ⟨row, hrow, rfl⟩
      rcases List.mem_filter.mp hrow with ⟨hrow, hc⟩
      rcases h.storage.records _ rec hget with ⟨_, hlt, names, hown⟩
      have heq := h.storage.rowsUnique row hrow _ (h.storage.rowsKnown _ hown) hcid.symm
      refine ⟨hlt, ?_⟩
      rw [← of_decide_eq_true hc, heq]

theorem edit_coherent (hstep : Edit types p s t) (h : Coherent kind s) : Coherent kind t := by
  -- No edit touches storage, so what is left is the objects, the holders and the root.
  have hs : ∀ u : Store, u.backend = s.backend → u.typeRows = s.typeRows →
      u.durableCids = s.durableCids → u.alloc = s.alloc → StorageOk kind u :=
    fun u hb hr hd ha => h.storage.congr hb hr hd (by rw [ha]) (by rw [ha])
  cases hstep with
  | grow hg => exact grow_coherent hg h
  | load hl => exact load_coherent hl h
  | ensures he => exact h.withIndex (ensures_holders h he)
  -- Building the reverse index leaves the class indexes alone.
  | reverse =>
      refine h.withIndex ?_
      have hsame : ∀ m : IndexManager, ∀ b cids, (m.ensureReverse b cids).byCls = m.byCls ∧
          (m.ensureReverse b cids).cacheBlobs = m.cacheBlobs := by
        intro m b cids
        rw [IndexManager.ensureReverse]
        split
        · exact ⟨rfl, rfl⟩
        · split <;> exact ⟨rfl, rfl⟩
      exact ⟨fun c ci hci => h.holders.built c ci ((hsame _ _ _).1 ▸ hci),
        fun blobs c blob hb => h.holders.cached blobs c blob ((hsame _ _ _).2 ▸ hb)⟩
  | construct c fields =>
      refine ⟨hs _ rfl rfl rfl rfl, objectsOk_push h.objects _ rfl rfl rfl rfl rfl rfl
        (fun _ _ hk => Or.inl hk) (fun _ => rfl) (fun _ => rfl) (fun k hk => by simp at hk),
        h.holders.congr rfl rfl, h.root.congr rfl rfl rfl fun k n _ hn => ⟨hn, ?_⟩⟩
      -- A new entity has an OID, so it is not the object that was pushed.
      have hlt := h.objects.bounded n k (h.objects.isNew k n hn).1
      exact congrArg Entity.cls ((Heap.get_push _ _ _).trans (if_neg (Nat.ne_of_lt hlt)))
  | firstWrite o hstate =>
      refine ⟨?_, objectsOk_onFirstWrite h.objects o hstate, ?_, ?_⟩
      -- A first write changes the state of an instance that has an OID, and else nothing.
      all_goals
        rw [onFirstWrite]
        split
      · exact hs _ rfl rfl rfl rfl
      · exact hs _ rfl rfl rfl rfl
      · exact h.holders.congr rfl rfl
      · exact h.holders.congr rfl rfl
      · exact h.root.congr rfl rfl rfl fun k n _ hn =>
          ⟨hn, (sameCls_setState s o .dirty n)⟩
      · exact h.root.congr rfl rfl rfl fun k n _ hn =>
          ⟨hn, (sameCls_setState s o .dirty n)⟩
  -- Fields and labels are no part of the life of an object.
  | edit o f hf hguard =>
      exact h.congr rfl rfl rfl rfl le_rfl
        (sameLife_modify (fun e => ⟨hf.cls e, hf.oid e, hf.state e⟩) s o) rfl rfl rfl
        (fun _ _ hk => hk) rfl rfl rfl
  | handle o f oid target =>
      have hlife := sameLife_modify (f := fun e =>
        { e with data := Function.update e.data f ((e.data f).withHandle oid target) })
        (fun _ => ⟨rfl, rfl, rfl⟩) s o
      exact h.congr rfl rfl rfl rfl le_rfl hlife rfl rfl rfl (fun _ _ hk => hk) rfl rfl rfl
  -- The cancelled insert is not the holder of the root (hroot).
  | cancel o oid hstate hnames hroot =>
      have hoid : (s.heap.get o).oid = some oid := hnames.elim id (h.objects.registered oid o)
      refine ⟨hs _ rfl rfl rfl rfl, objectsOk_cancelInsert h.objects hstate hoid,
        h.holders.congr rfl rfl, h.root.congr rfl rfl rfl fun k n hk hn => ⟨?_, ?_⟩⟩
      · refine (Dict.get?_erase_ne _ ?_).trans hn
        rintro rfl
        exact hroot hk
      · exact sameCls_setState s o .deleted n
  -- The instance is CLEAN or DIRTY, so its OID is of its class.
  | deleteObject o oid hstate hoid hroot =>
      refine bufferDelete_coherent h (h.objects.settled o oid hstate hoid) fun n hn => ?_
      cases hn
      refine ⟨hoid, ?_⟩
      rcases hstate with hstate | hstate <;> rw [hstate] <;> decide
  -- The holder of a key is an OID of the class (Holders).
  | deleteHolder oid c f key ci hci hheld hstate hroot =>
      exact bufferDelete_coherent h (h.holders.built c ci hci f key oid hheld)
        fun n hn => ⟨h.objects.registered oid n hn, hstate n hn⟩
  -- The root is the entity that was just adopted.
  | assignRoot o oid hnew hoid hcls =>
      refine ⟨hs _ rfl rfl rfl rfl, h.objects.congr le_rfl (fun _ => ⟨rfl, rfl, rfl⟩) rfl rfl rfl
        (fun _ _ hk => hk) rfl le_rfl, h.holders.congr rfl rfl, ⟨fun k hk => ?_, h.root.durableRoot⟩⟩
      have hk' : oid = k := Option.some.inj (hoid.symm.trans hk)
      exact Or.inr ⟨rfl, o, hk' ▸ hnew, hcls⟩
  | pinRoot o =>
      refine ⟨hs _ rfl rfl rfl rfl, h.objects.congr le_rfl (fun _ => ⟨rfl, rfl, rfl⟩) rfl rfl rfl
        (fun _ _ hk => hk) rfl le_rfl, h.holders.congr rfl rfl, ⟨fun k hk => ?_, h.root.durableRoot⟩⟩
      exact (h.root.root k hk).imp id fun hnew => ⟨rfl, hnew.2⟩
  -- A root that is not held was stored, since a new one is held.
  | dropRoot oid hroot hholder =>
      have hknown : Known kind s rootCls oid := by
        rcases h.root.root oid hroot with hknown | ⟨hsome, _⟩
        · exact hknown
        · rw [hholder] at hsome
          simp at hsome
      refine ⟨hs _ rfl rfl rfl rfl, ?_, h.holders.congr rfl rfl,
        h.root.congr rfl rfl rfl fun _ _ _ hn => ⟨hn, rfl⟩⟩
      refine ⟨h.objects.bounded, h.objects.fresh, h.objects.isNew, h.objects.newOf,
        h.objects.settled, h.objects.isDirty, fun k c obj hk => ?_, h.objects.registered⟩
      by_cases hkoid : k = oid
      · rw [hkoid] at hk ⊢
        have heq : (rootCls, none) = (c, obj) :=
          Option.some.inj ((Dict.get?_set_self _ _ _).symm.trans hk)
        cases heq
        exact ⟨hknown, fun n hn => by simp at hn⟩
      · exact h.objects.isDeleted k c obj ((Dict.get?_set_ne _ _ hkoid).symm.trans hk)
  | upserts d =>
      exact h.congr rfl rfl rfl rfl le_rfl (fun _ => ⟨rfl, rfl, rfl⟩) rfl rfl rfl
        (fun _ _ hk => hk) rfl rfl rfl
  | forget oid =>
      exact h.congr rfl rfl rfl rfl le_rfl (fun _ => ⟨rfl, rfl, rfl⟩) rfl rfl rfl
        (fun _ _ hk => (get?_erase_some hk).1) rfl rfl rfl

end Steps

end Store

end DataCrystal
