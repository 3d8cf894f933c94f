import DataCrystal.Lockstep

/-!
# The Rows of a Class

What storage holds of a class, as the function from OIDs to keys an index stands
for. A rebuild stands for the rows of its class; so an index is right as long as
it stands for them, however it came about.

A commit replaces the rows of the entities it writes, drops those of the entities
it deletes and leaves the others. No two rows of a class hold a unique key if one
index stands for all of them, since a unique map names one holder.

## Main definitions

* `Backend.classRows`: The rows of a class.
* `SameKeys`: Two sets of rows that no index of the class tells apart.
* `Distinct`: No two rows hold a unique key.

## Theorems

* `rowsOf_scannedRows`: A scan meets the rows of the class.
* `build_represents`: A rebuild stands for the rows of its class.
* `stored_pending`, `stored_deleted`, `stored_other`: The rows after a commit.
-/

namespace DataCrystal

open Store ClassIndexes

variable {fam : String → String → Family} {types : Types}

/-- The rows of a class. -/
def Backend.classRows (b : Backend) (ti : TypeInfo) (c : String) : Rows := fun k =>
  ((b.objects.get? k).filter fun rec => b.typenameOf rec.cid = some c).map fun rec =>
    rowKeys ti (b.rowOf ti rec)

/-- Two sets of rows that no index of the class tells apart: the same OIDs, with the
    same keys in every field that is maintained. -/
structure SameKeys (ti : TypeInfo) (rows rows' : Rows) : Prop where
  present : ∀ k, (rows' k).isSome = (rows k).isSome
  keys : ∀ k, ∀ f ∈ ti.maintainedFields, recalled (rows' k) f = recalled (rows k) f

/-- No two rows hold a unique key. A rebuild gives the key to the row that is
    scanned last, so without this the order of the scan would matter. -/
def Distinct (ti : TypeInfo) (rows : Rows) : Prop := ∀ f ∈ ti.uniqueFields, ∀ k n n',
  some k ∈ recalled (rows n) f → some k ∈ recalled (rows n') f → n = n'

section Rows

variable {ti : TypeInfo} {rows rows' : Rows} {lost : Lost} {ci : ClassIndexes}

/-- An index stands for whatever it cannot tell from the rows it stands for. -/
theorem represents_congr (h : Represents ti rows lost ci) (hsame : SameKeys ti rows rows') :
    Represents ti rows' lost ci := by
  have heq : ∀ f ∈ ti.eqIndexFields, ∀ k, recalled (rows' k) f = recalled (rows k) f :=
    fun f hf k => hsame.keys k f ((ti.mem_maintainedFields f).mpr (Or.inl hf))
  have huniq : ∀ f ∈ ti.uniqueFields, ∀ k, recalled (rows' k) f = recalled (rows k) f :=
    fun f hf k => hsame.keys k f ((ti.mem_maintainedFields f).mpr (Or.inr hf))
  refine ⟨h.eqKeys, h.uniqueKeys, h.listFields, h.sortedFields, fun n => ?_, fun f hf k n => ?_,
    fun f hf k n hn => ?_, fun f hf k n hn => ?_, fun n f hf k => ?_, fun n f hf k => ?_⟩
  · rw [hsame.present]
    exact h.extent n
  · rw [heq f hf]
    exact h.posting f hf k n
  · rw [huniq f hf]
    exact h.holds f hf k n hn
  · rw [huniq f hf] at hn
    exact h.held f hf k n hn
  · rw [heq f hf]
    exact h.memory n f hf k
  · rw [huniq f hf]
    exact h.uniqueMemory n f hf k

/-- A unique map names one holder. -/
theorem distinct_of_represents (h : Represents ti rows noneLost ci) : Distinct ti rows := by
  intro f hf k n n' hn hn'
  have hheld := h.held f hf k n hn id
  have hheld' := h.held f hf k n' hn' id
  rw [hheld] at hheld'
  exact Option.some.inj hheld'

end Rows

namespace Store

variable {p : Principal} {kind : Nat → String} {s t : Store} {ti : TypeInfo} {c : String}

theorem classRows_some {b : Backend} {k : Nat} {row : String → List (Option Key)}
    (h : b.classRows ti c k = some row) :
    ∃ rec, b.objects.get? k = some rec ∧ b.typenameOf rec.cid = some c ∧
      row = rowKeys ti (b.rowOf ti rec) := by
  unfold Backend.classRows at h
  rcases Option.map_eq_some_iff.mp h with ⟨rec, hrec, rfl⟩
  rcases Option.filter_eq_some_iff.mp hrec with ⟨hget, hcls⟩
  exact ⟨rec, hget, of_decide_eq_true hcls, rfl⟩

theorem classRows_of_record {b : Backend} {k : Nat} {rec : StoredRecord}
    (hrec : b.objects.get? k = some rec) (hcls : b.typenameOf rec.cid = some c) :
    b.classRows ti c k = some (rowKeys ti (b.rowOf ti rec)) := by
  unfold Backend.classRows
  rw [hrec, Option.filter_some, if_pos (decide_eq_true hcls)]
  rfl

/-- An OID that has no record, or one of another class, has no row. -/
theorem classRows_none {b : Backend} {k : Nat}
    (h : ∀ rec, b.objects.get? k = some rec → b.typenameOf rec.cid ≠ some c) :
    b.classRows ti c k = none := by
  cases hrow : b.classRows ti c k with
  | none => rfl
  | some row =>
      rcases classRows_some hrow with ⟨rec, hget, hcls, -⟩
      exact absurd hcls (h rec hget)

/-- A scan meets every OID once. -/
theorem scannedRows_nodup (ti : TypeInfo) (c : String) (h : StorageOk kind s) (hrows : (s.typeRows.map Prod.fst).Nodup) :
    ((scannedRows ti (s.lineageFor c) s.backend.scanType).map Prod.fst).Nodup := by
  have hshape : ∀ shape : Nat × List String, ((s.backend.scanType shape.1).map fun rec =>
      (rec.oid, recordRow ti shape.2 rec.payload)).map Prod.fst =
      (s.backend.scanType shape.1).map StoredRecord.oid := by
    intro shape
    rw [List.map_map]
    rfl
  unfold scannedRows
  rw [List.map_flatMap, List.nodup_flatMap]
  constructor
  · intro shape _
    rw [hshape]
    exact Backend.scanType_nodup h.filed shape.1
  · have hcids : ((s.lineageFor c).map Prod.fst).Nodup := by
      unfold lineageFor
      rw [List.map_map]
      exact hrows.sublist (List.filter_sublist.map _)
    -- Two shapes have two ids, and a record is filed under one.
    refine (List.pairwise_map.mp hcids).imp fun {a b} hab => ?_
    intro k hk hk'
    dsimp only at hk hk'
    rw [hshape] at hk hk'
    rcases List.mem_map.mp hk with ⟨rec, hrec, rfl⟩
    rcases List.mem_map.mp hk' with ⟨rec', hrec', hoid⟩
    rcases (Backend.mem_scanType h.filed _ _).mp hrec with ⟨hget, hcid⟩
    rcases (Backend.mem_scanType h.filed _ _).mp hrec' with ⟨hget', hcid'⟩
    rw [hoid, hget] at hget'
    rw [← Option.some.inj hget'] at hcid'
    exact hab (hcid.symm.trans hcid')

/-- A scan meets the rows of the class. -/
theorem rowsOf_scannedRows (h : StorageOk kind s) (hrows : (s.typeRows.map Prod.fst).Nodup) :
    rowsOf ti (scannedRows ti (s.lineageFor c) s.backend.scanType) = s.backend.classRows ti c := by
  funext k
  cases hrow : s.backend.classRows ti c k with
  | some row =>
      rcases classRows_some hrow with ⟨rec, hget, hcls, rfl⟩
      have hoid := (h.records k rec hget).1
      have hmem : (rec.oid, s.backend.rowOf ti rec) ∈
          scannedRows ti (s.lineageFor c) s.backend.scanType :=
        (mem_scannedRows h _).mpr ⟨rec, ⟨by rw [hoid]; exact hget, hcls⟩, rfl⟩
      have hone : rowsOf ti (scannedRows ti (s.lineageFor c) s.backend.scanType) rec.oid =
          some (rowKeys ti (s.backend.rowOf ti rec)) :=
        (rowsOf_of_mem (scannedRows_nodup ti c h hrows) hmem).1
      rw [← hoid]
      exact hone
  | none =>
      cases hscan : rowsOf ti (scannedRows ti (s.lineageFor c) s.backend.scanType) k with
      | none => rfl
      | some row =>
          rcases rowsOf_eq_some hscan with ⟨e, he, hk, -, -⟩
          rcases (mem_scannedRows h e).mp he with ⟨rec, hrec, rfl⟩
          have hsome : s.backend.classRows ti c rec.oid = _ :=
            classRows_of_record hrec.1 hrec.2
          have hk' : rec.oid = k := hk
          rw [hk', hrow] at hsome
          cases hsome

/-- The records of a class conform. -/
def RowsConform (fam : String → String → Family) (types : Types) (b : Backend) : Prop :=
  ∀ c rec, b.RecordOf c rec → Conforms (fam c) (types.info c) (b.rowOf (types.info c) rec)

/-- A rebuild stands for the rows of its class. -/
theorem build_represents (hfam : ∀ c f, fam c f ≠ .nan) (h : StorageOk kind s)
    (hrows : (s.typeRows.map Prod.fst).Nodup)
    (hadm : Admits (types.info c) (s.lineageFor c) s.backend.scanType)
    (hconf : RowsConform fam types s.backend)
    (hdist : Distinct (types.info c) (s.backend.classRows (types.info c) c)) :
    ∃ ci, buildClassIndexes (types.info c) (s.lineageFor c) s.backend.scanType = .ok ci ∧
      Represents (types.info c) (s.backend.classRows (types.info c) c) noneLost ci ∧
      Sound (fam c) ci ∧ ci.building = false := by
  have hrowsConf : ∀ e ∈ scannedRows (types.info c) (s.lineageFor c) s.backend.scanType,
      Conforms (fam c) (types.info c) e.2 := by
    intro e he
    rcases (mem_scannedRows h e).mp he with ⟨rec, hrec, rfl⟩
    exact hconf c rec hrec
  rcases build_spec (s.lineageFor c) s.backend.scanType (fun f _ => hfam c f) hadm
    (scannedRows_nodup (types.info c) c h hrows) hrowsConf with ⟨ci, hbuild, hrep, hsound, hdone⟩
  rw [rowsOf_scannedRows h hrows] at hrep
  refine ⟨ci, hbuild, ?_, hsound, hdone⟩
  refine { hrep with held := fun f hf k n hn _ => hrep.held f hf k n hn ?_ }
  -- A later row with the key would be a second row with it.
  rintro ⟨before, row, after, hsplit, e, he, hk⟩
  have hnd := scannedRows_nodup (types.info c) c h hrows
  have hmem : e ∈ scannedRows (types.info c) (s.lineageFor c) s.backend.scanType := by
    rw [hsplit]
    exact List.mem_append_right _ (List.mem_cons_of_mem _ he)
  have hrow : rowsOf (types.info c) (scannedRows (types.info c) (s.lineageFor c)
      s.backend.scanType) e.1 = some (rowKeys (types.info c) e.2) := (rowsOf_of_mem hnd hmem).1
  rw [rowsOf_scannedRows h hrows] at hrow
  have hsame := hdist f hf k n e.1 hn (by rw [hrow]; exact hk)
  rw [hsplit, List.map_append, List.map_cons, List.nodup_append, List.nodup_cons] at hnd
  have hin : n ∈ after.map Prod.fst := by
    rw [hsame]
    exact List.mem_map_of_mem he
  exact hnd.2.1.1 hin

section Stored

variable {out : EncodedBatch}

/-- Every pending entity is written. -/
theorem stored_of_pending (hb : BatchOk types t t.pending.entries t out)
    {k o : Nat} (hko : (k, o) ∈ t.pending.entries) :
    ∃ rec, (t.backend.apply (t.buildBatch out)).objects.get? k = some rec ∧ rec.oid = k := by
  have hfst : (t.buildBatch out).records.map StoredRecord.oid =
      t.pending.entries.map fun e => e.1 := by
    rw [← hb.oids]
    unfold buildBatch
    rw [List.map_map]
    rfl
  have hmem : k ∈ (t.buildBatch out).records.map StoredRecord.oid := by
    rw [hfst]
    exact List.mem_map.mpr ⟨(k, o), hko, rfl⟩
  rcases List.mem_map.mp hmem with ⟨rec, hrec, rfl⟩
  have hkeep : t.deleted.get? rec.oid = none :=
    ((get?_pending t rec.oid o).mp ((Dict.get?_eq_some_iff _ _ _).mpr hko)).1
  refine ⟨rec, Backend.get?_apply_of_record ?_ hrec ?_, rfl⟩
  · rw [hfst]
    exact t.pending.nodup
  · exact (Dict.not_mem_keys_iff _ _).mpr hkeep

/-- The record of a written entity, filed under a shape of the entity's class. -/
theorem stored_pending_record (h : Coherent kind t)
    (hb : BatchOk types t t.pending.entries t out) {k o : Nat}
    (hko : (k, o) ∈ t.pending.entries) : ∃ rec,
      (t.backend.apply (t.buildBatch out)).objects.get? k = some rec ∧
      (t.backend.apply (t.buildBatch out)).typenameOf rec.cid = some (t.heap.get o).cls ∧
      t.EncodedAs o (t.info types o).specs rec.payload ∧
      (t.backend.apply (t.buildBatch out)).fieldsOf rec.cid = (t.info types o).fieldNames := by
  rcases stored_of_pending hb hko with ⟨rec, hget, rfl⟩
  rcases stored_storage h hb with ⟨u, hu, hbackend, -⟩
  have hcls := (hu.shape (hbackend ▸ hget)).2
  rw [hbackend] at hcls
  rcases stored_recordOf h hb ⟨hget, hcls⟩ with ⟨-, -, hno, -⟩ | ⟨o', ho', hclass, henc, hnames⟩
  · exact absurd (List.mem_map.mpr ⟨(rec.oid, o), hko, rfl⟩) hno
  · rw [t.pending.value_unique ho' hko] at hclass henc
    refine ⟨rec, hget, hclass ▸ hcls, ?_, ?_⟩
    · rw [info, hclass]
      exact henc
    · rw [info, hclass]
      exact hnames

/-- A written entity has a row, under the keys the entity has. -/
theorem stored_pending (h : Coherent kind t) (hb : BatchOk types t t.pending.entries t out)
    {k o : Nat} (hko : (k, o) ∈ t.pending.entries) (hcls : (t.heap.get o).cls = c) :
    ∃ row, (t.backend.apply (t.buildBatch out)).classRows (types.info c) c k = some row ∧
      ∀ f ∈ (types.info c).maintainedFields,
        row f = rowKeys (types.info c) (t.heap.get o).field f := by
  rcases stored_pending_record h hb hko with ⟨rec, hget, hclass, henc, hnames⟩
  rw [hcls] at hclass
  rw [info, hcls] at henc hnames
  refine ⟨_, classRows_of_record hget hclass, fun f hf => ?_⟩
  rw [Backend.rowOf, hnames]
  exact encodedAs_rowKeys henc hf

/-- A written entity of another class has no row. -/
theorem stored_pending_other (h : Coherent kind t)
    (hb : BatchOk types t t.pending.entries t out) {k o : Nat}
    (hko : (k, o) ∈ t.pending.entries) (hcls : (t.heap.get o).cls ≠ c) :
    (t.backend.apply (t.buildBatch out)).classRows ti c k = none := by
  rcases stored_pending_record h hb hko with ⟨rec, hget, hclass, -⟩
  refine classRows_none fun rec' hget' hc => hcls ?_
  rw [hget] at hget'
  rw [← Option.some.inj hget', hclass] at hc
  exact Option.some.inj hc

/-- Before the commit it had none either. -/
theorem pending_other (h : Coherent kind t) {k o : Nat} (hko : (k, o) ∈ t.pending.entries)
    (hcls : (t.heap.get o).cls ≠ c) : t.backend.classRows ti c k = none := by
  refine classRows_none fun rec hget hc => hcls ?_
  rw [(h.storage.shape hget).2, Option.some.injEq] at hc
  rcases h.pending_object hko with ⟨hoid, ⟨-, hnew⟩ | ⟨hst, -⟩⟩
  · rw [h.new_unstored hnew] at hget
    cases hget
  · rw [(h.objects.settled o k (Or.inr hst) hoid).2]
    exact hc

/-- A deleted entity has no row any more. -/
theorem stored_deleted {k : Nat} (hdel : k ∈ t.deleted.keys) :
    (t.backend.apply (t.buildBatch out)).classRows ti c k = none := by
  refine classRows_none fun rec hget _ => ?_
  have hgone : (t.backend.apply (t.buildBatch out)).objects.get? k = none :=
    Backend.get?_apply_of_deleted hdel
  rw [hgone] at hget
  cases hget

/-- The record of an entity that is neither written nor deleted stays. -/
theorem stored_other_record (hb : BatchOk types t t.pending.entries t out) {k : Nat}
    (hdel : k ∉ t.deleted.keys) (hno : k ∉ t.pending.keys) :
    (t.backend.apply (t.buildBatch out)).objects.get? k = t.backend.objects.get? k := by
  refine Backend.get?_apply_other (fun r hr hk => hno ?_) hdel
  rcases List.mem_map.mp hr with ⟨r₀, hr₀, rfl⟩
  rw [Dict.keys, ← hb.oids, ← hk]
  exact List.mem_map.mpr ⟨r₀, hr₀, rfl⟩

/-- The other rows are as they were. -/
theorem stored_other (h : Coherent kind t) (hb : BatchOk types t t.pending.entries t out)
    {k : Nat} (hdel : k ∉ t.deleted.keys) (hno : k ∉ t.pending.keys) :
    (t.backend.apply (t.buildBatch out)).classRows ti c k = t.backend.classRows ti c k := by
  have hget := stored_other_record hb hdel hno
  unfold Backend.classRows
  rw [hget]
  cases hrec : t.backend.objects.get? k with
  | none => rfl
  | some rec =>
      have hfind := Backend.find?_types_apply (t.buildBatch out) (h.storage.row hrec) rfl
      have hname : (t.backend.apply (t.buildBatch out)).typenameOf rec.cid =
          t.backend.typenameOf rec.cid := by
        rw [Backend.typenameOf, Backend.typenameOf, hfind]
      have hrow : (t.backend.apply (t.buildBatch out)).rowOf ti rec = t.backend.rowOf ti rec := by
        rw [Backend.rowOf, Backend.rowOf, Backend.fieldsOf, Backend.fieldsOf, hfind]
      rw [Option.filter_some, Option.filter_some, hname]
      split
      · rw [Option.map_some, Option.map_some, hrow]
      · rfl

end Stored

end Store

end DataCrystal
