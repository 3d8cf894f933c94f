import DataCrystal.Fence

/-!
# What a Scan Meets

A build scans the shapes of a class and reads every record through the fields it
was written with. On a coherent store the rows it meets are the committed
records of the class, each once; this module says so, and says what a commit
does to them.

A payload is what the codec made of an entity. The codec drops the difference
between a tuple and a list and between an entity and its OID, and neither is a
key, so a record is indexed under the keys its entity had.

## Main definitions

* `Backend.rowOf`: The row of a record, for a class.
* `Backend.RecordOf`: A committed record of a class.

## Theorems

* `encode_indexKeys`: The codec keeps the keys of a value.
* `mem_scannedRows`: A scan meets the records of the class.
* `stored_recordOf`: The records of a class after a commit.
-/

namespace DataCrystal

open Store

section Keys

variable {ρ τ : Type} {f : ρ → Except Err τ}

theorem scalarKey_mapLeaves {v : Val ρ} {w : Val τ} (h : v.mapLeaves f = .ok w) :
    w.scalarKey = v.scalarKey := by
  unfold Val.mapLeaves at h
  cases v with
  | none => cases h; rfl
  | scalar s => cases h; rfl
  | leaf r =>
      rcases except_bind_ok_iff.mp h with ⟨t, -, hw⟩
      cases hw
      rfl
  | seq kind items =>
      rcases except_bind_ok_iff.mp h with ⟨t, -, hw⟩
      cases hw
      rfl
  | dict entries =>
      rcases except_bind_ok_iff.mp h with ⟨t, -, hw⟩
      cases hw
      rfl

/-- The codec changes a sequence and a dictionary and nothing else. -/
theorem storable_cases {v w : Val τ} (h : v.storable = .ok w) : w = v ∨
    (∃ kind xs ys, v = .seq kind xs ∧ Val.storable.storableItems xs = .ok ys ∧ w = .seq .list ys) ∨
      ∃ xs ys, v = .dict xs ∧ w = .dict ys := by
  unfold Val.storable at h
  split at h
  · split at h
    · -- an integer is refused or kept as it is
      split at h
      · exact Or.inl (Except.ok.inj h).symm
      · cases h
    · exact Or.inl (Except.ok.inj h).symm
  · rename_i kind xs
    cases hitems : Val.storable.storableItems xs with
    | error e => rw [hitems] at h; cases h
    | ok ys =>
        rw [hitems] at h
        exact Or.inr (Or.inl ⟨kind, xs, ys, rfl, hitems, (Except.ok.inj h).symm⟩)
  · rename_i xs
    cases hentries : Val.storable.storableEntries xs with
    | error e => rw [hentries] at h; cases h
    | ok ys =>
        rw [hentries] at h
        exact Or.inr (Or.inr ⟨xs, ys, rfl, (Except.ok.inj h).symm⟩)
  · exact Or.inl (Except.ok.inj h).symm

theorem scalarKey_storable {v w : Val τ} (h : v.storable = .ok w) : w.scalarKey = v.scalarKey := by
  rcases storable_cases h with rfl | ⟨kind, xs, ys, rfl, -, rfl⟩ | ⟨xs, ys, rfl, rfl⟩ <;> rfl

theorem itemKeys_mapLeaves (items : List (Val ρ)) : ∀ ys : List (Val τ),
    Val.mapLeaves.mapItems f items = .ok ys → ys.mapM Val.scalarKey = items.mapM Val.scalarKey := by
  induction items with
  | nil =>
      intro ys h
      cases h
      rfl
  | cons x items ih =>
      intro ys h
      rw [Val.mapLeaves.mapItems] at h
      rcases except_bind_ok_iff.mp h with ⟨y, hy, h⟩
      rcases except_bind_ok_iff.mp h with ⟨rest, hrest, h⟩
      cases h
      rw [List.mapM_cons, List.mapM_cons, scalarKey_mapLeaves hy, ih rest hrest]

theorem itemKeys_storable (items : List (Val τ)) : ∀ ys : List (Val τ),
    Val.storable.storableItems items = .ok ys →
      ys.mapM Val.scalarKey = items.mapM Val.scalarKey := by
  induction items with
  | nil =>
      intro ys h
      rw [Val.storable.storableItems] at h
      cases h
      rfl
  | cons x items ih =>
      intro ys h
      rw [Val.storable.storableItems] at h
      split at h
      · cases h
      · rename_i y hy
        cases hrest : Val.storable.storableItems items with
        | error e => rw [hrest] at h; cases h
        | ok rest =>
            rw [hrest] at h
            cases h
            rw [List.mapM_cons, List.mapM_cons, scalarKey_storable hy, ih rest hrest]

theorem indexKeys_storable {v w : Val τ} (h : v.storable = .ok w) (multivalued : Bool) :
    w.indexKeys multivalued = v.indexKeys multivalued := by
  rcases storable_cases h with rfl | ⟨kind, xs, ys, rfl, hitems, rfl⟩ | ⟨xs, ys, rfl, rfl⟩
  · rfl
  · unfold Val.indexKeys
    split
    · exact itemKeys_storable xs ys hitems
    · rfl
  · unfold Val.indexKeys
    split <;> rfl

theorem indexKeys_mapLeaves {v : Val ρ} {w : Val τ} (h : v.mapLeaves f = .ok w)
    (multivalued : Bool) : w.indexKeys multivalued = v.indexKeys multivalued := by
  unfold Val.indexKeys
  rw [scalarKey_mapLeaves h]
  split
  · -- a list field is indexed by its elements
    unfold Val.mapLeaves at h
    cases v with
    | none => cases h; rfl
    | scalar s => cases h; rfl
    | leaf r =>
        rcases except_bind_ok_iff.mp h with ⟨t, -, hw⟩
        cases hw
        rfl
    | seq kind items =>
        rcases except_bind_ok_iff.mp h with ⟨ys, hys, hw⟩
        cases hw
        exact itemKeys_mapLeaves items ys hys
    | dict entries =>
        rcases except_bind_ok_iff.mp h with ⟨ys, -, hw⟩
        cases hw
        rfl
  · rfl

/-- The codec keeps the keys of a value. -/
theorem encode_indexKeys {v : Val ρ} {w : Val τ} (h : v.encode f = .ok w) (multivalued : Bool) :
    w.indexKeys multivalued = v.indexKeys multivalued := by
  unfold Val.encode at h
  cases hmap : v.mapLeaves f with
  | error e => rw [hmap] at h; cases h
  | ok u =>
      rw [hmap] at h
      exact (indexKeys_storable h multivalued).trans (indexKeys_mapLeaves hmap multivalued)

/-- The codec keeps what object the key of a scalar is. -/
theorem encode_decimalAt {v : Val ρ} {w : Val τ} (h : v.encode f = .ok w)
    {keys : List (Option Key)} (hkeys : v.indexKeys false = .ok keys) (k : Key) :
    w.decimalAt k = v.decimalAt k := by
  unfold Val.encode at h
  have hscalar : ∀ {u : Val τ}, (∀ kind xs, u ≠ .seq kind xs) → (∀ xs, u ≠ .dict xs) →
      u.storable = .ok w → w = u := by
    intro u hseq hdict hu
    rcases storable_cases hu with rfl | ⟨kind, xs, -, rfl, -⟩ | ⟨xs, -, rfl, -⟩
    · rfl
    · exact absurd rfl (hseq kind xs)
    · exact absurd rfl (hdict xs)
  rcases indexKeys_scalar hkeys with ⟨rfl, -⟩ | ⟨s, rfl, -⟩
  · rw [hscalar (by simp) (by simp) h]
    rfl
  · rw [hscalar (by simp) (by simp) h]
    rfl

end Keys

section Encoded

variable {s : Store} {o : Nat} {ti : TypeInfo} {payload : List (Val Token)}

theorem mem_fieldNames_of_maintained {f : String} (hf : f ∈ ti.maintainedFields) :
    f ∈ ti.fieldNames := by
  rcases List.mem_map.mp hf with ⟨spec, hspec, rfl⟩
  exact List.mem_map_of_mem (List.mem_filter.mp hspec).1

/-- The codec has stored the value of a maintained field: a blob field carries no
    index. -/
theorem encodedAs_maintained (h : s.EncodedAs o ti.specs payload) {f : String}
    (hf : f ∈ ti.maintainedFields) :
    ((s.heap.get o).field f).encode s.oidForEncode =
      .ok (recordRow ti ti.fieldNames payload f) := by
  have hname : ti.fieldNames.contains f = true :=
    List.contains_iff_mem.mpr (mem_fieldNames_of_maintained hf)
  rw [recordRow, if_pos hname]
  rcases List.mem_map.mp hf with ⟨spec, hspec, rfl⟩
  rw [List.mem_filter] at hspec
  have hblob : spec.blob = false := by
    by_contra hb
    have hno := spec.blob_unmarked (by simpa using hb)
    simp [hno.1, hno.2.1, hno.2.2] at hspec
  have hvalue := encodedAs_value h hspec.1
  rw [FieldEncodedAs, if_neg (by simp [hblob])] at hvalue
  exact hvalue

/-- A record is indexed under the keys of its entity. -/
theorem encodedAs_indexKeys (h : s.EncodedAs o ti.specs payload) {f : String}
    (hf : f ∈ ti.maintainedFields) (multivalued : Bool) :
    (recordRow ti ti.fieldNames payload f).indexKeys multivalued =
      ((s.heap.get o).field f).indexKeys multivalued :=
  encode_indexKeys (encodedAs_maintained h hf) multivalued

theorem encodedAs_rowKeys (h : s.EncodedAs o ti.specs payload) {f : String}
    (hf : f ∈ ti.maintainedFields) :
    rowKeys ti (recordRow ti ti.fieldNames payload) f = rowKeys ti (s.heap.get o).field f := by
  unfold rowKeys
  rw [encodedAs_indexKeys h hf]

end Encoded

namespace Backend

/-- The row of a record, for a class. -/
def rowOf (b : Backend) (ti : TypeInfo) (rec : StoredRecord) : String → Val Token :=
  recordRow ti (b.fieldsOf rec.cid) rec.payload

/-- A committed record of a class. -/
def RecordOf (b : Backend) (c : String) (rec : StoredRecord) : Prop :=
  b.objects.get? rec.oid = some rec ∧ b.typenameOf rec.cid = some c

variable {b : Backend}

/-- A batch adds shapes behind the ones there are, so a shape that is there
    reads as before. -/
theorem find?_types_apply (batch : CommitBatch) {cid : Nat} {row : TypeRow} (hrow : row ∈ b.types) (hcid : row.1 = cid) :
    (b.apply batch).types.find? (fun r => r.1 = cid) = b.types.find? fun r => r.1 = cid := by
  have hsome : (b.types.find? fun r => r.1 = cid).isSome := by
    rw [List.find?_isSome]
    exact ⟨row, hrow, decide_eq_true hcid⟩
  rcases Option.isSome_iff_exists.mp hsome with ⟨r, hr⟩
  change (b.types ++ batch.newTypes).find? _ = _
  rw [List.find?_append, hr, Option.some_or]

end Backend

namespace Store

variable {types : Types} {kind : Nat → String} {s t : Store} {ti : TypeInfo} {c : String}

theorem StorageOk.filed (h : StorageOk kind s) : s.backend.Filed :=
  fun k rec hrec => (h.records k rec hrec).1

/-- The shape of a stored record, by the type dictionary. -/
theorem StorageOk.row (h : StorageOk kind s) {k : Nat} {rec : StoredRecord}
    (hrec : s.backend.objects.get? k = some rec) :
    (rec.cid, kind k, s.backend.fieldsOf rec.cid) ∈ s.backend.types := by
  rcases h.records k rec hrec with ⟨-, -, names, hrow⟩
  have hfind := find?_row hrow h.types_unique
  rw [Backend.fieldsOf, hfind]
  exact hrow

/-- A record is of the class its OID is of. -/
theorem StorageOk.recordOf_iff (h : StorageOk kind s) (rec : StoredRecord) :
    s.backend.RecordOf c rec ↔ s.backend.objects.get? rec.oid = some rec ∧ kind rec.oid = c := by
  refine and_congr_right fun hrec => ?_
  rw [(h.shape hrec).2, Option.some.injEq]

/-- A scan meets the records of the class. -/
theorem mem_scannedRows (h : StorageOk kind s) (e : Nat × (String → Val Token)) :
    e ∈ scannedRows ti (s.lineageFor c) s.backend.scanType ↔
      ∃ rec, s.backend.RecordOf c rec ∧ e = (rec.oid, s.backend.rowOf ti rec) := by
  rw [scannedRows, List.mem_flatMap]
  constructor
  · rintro ⟨shape, hshape, he⟩
    rcases List.mem_map.mp hshape with ⟨row, hrow, rfl⟩
    rw [List.mem_filter, decide_eq_true_eq] at hrow
    rcases List.mem_map.mp he with ⟨rec, hrec, rfl⟩
    rcases (Backend.mem_scanType h.filed _ _).mp hrec with ⟨hget, hcid⟩
    -- The shape scanned is the shape the record was written in.
    have hsame := h.rowsUnique _ (h.rowsKnown _ (h.row hget)) row hrow.1 hcid
    refine ⟨rec, (h.recordOf_iff rec).mpr ⟨hget, ?_⟩, ?_⟩
    · rw [← hrow.2, ← hsame]
    · rw [Backend.rowOf, ← hsame]
  · rintro ⟨rec, hrec, rfl⟩
    have hkind := ((h.recordOf_iff rec).mp hrec).2
    refine ⟨(rec.cid, s.backend.fieldsOf rec.cid), ?_, ?_⟩
    · refine List.mem_map.mpr ⟨(rec.cid, kind rec.oid, s.backend.fieldsOf rec.cid), ?_, rfl⟩
      rw [List.mem_filter, decide_eq_true_eq]
      exact ⟨h.rowsKnown _ (h.row hrec.1), hkind⟩
    · refine List.mem_map.mpr ⟨rec, ?_, rfl⟩
      exact (Backend.mem_scanType h.filed _ _).mpr ⟨hrec.1, rfl⟩

/-- Storage behind a commit, with the shapes the store knew before it. -/
theorem stored_storage {out : EncodedBatch} (h : Coherent kind t)
    (hb : BatchOk types t t.pending.entries t out) : ∃ u : Store,
      StorageOk (classed kind t) u ∧ u.backend = t.backend.apply (t.buildBatch out) ∧
        u.typeRows = t.typeRows := by
  have hstored : StorageOk (classed kind t)
      (applyBatch (t.captureOf types [] out).batch (t.settle types)) := stored_storageOk h hb
  rcases foldl_flipOne types t.pending.entries t with ⟨hp, r, hflip, -⟩
  refine ⟨_, hstored, ?_, ?_⟩
  · simp only [applyBatch, settle, hflip]
    rfl
  · simp only [applyBatch, settle, hflip]

/-- A record of a class after a commit is one of it from before, or the encoding
    of a pending entity of the class. -/
theorem stored_recordOf {out : EncodedBatch} (h : Coherent kind t)
    (hb : BatchOk types t t.pending.entries t out) {rec : StoredRecord}
    (hrec : (t.backend.apply (t.buildBatch out)).RecordOf c rec) :
    (t.backend.RecordOf c rec ∧ t.deleted.get? rec.oid = none ∧ rec.oid ∉ t.pending.keys ∧
      ∀ ti, (t.backend.apply (t.buildBatch out)).rowOf ti rec = t.backend.rowOf ti rec) ∨
      ∃ o, (rec.oid, o) ∈ t.pending.entries ∧ (t.heap.get o).cls = c ∧
        t.EncodedAs o (types.info c).specs rec.payload ∧
        (t.backend.apply (t.buildBatch out)).fieldsOf rec.cid = (types.info c).fieldNames := by
  rcases stored_record h hb hrec.1 with ⟨hold, hdel, hpend⟩ | ⟨o, ho, henc, hnames, -⟩
  · have hfind := Backend.find?_types_apply (t.buildBatch out) (h.storage.row hold) rfl
    refine Or.inl ⟨⟨hold, ?_⟩, hdel, hpend, fun ti => ?_⟩
    · have hcls := hrec.2
      rw [Backend.typenameOf, hfind] at hcls
      exact hcls
    · rw [Backend.rowOf, Backend.rowOf, Backend.fieldsOf, Backend.fieldsOf, hfind]
  · rcases stored_storage h hb with ⟨u, hstored, hbackend, -⟩
    have hkind := ((hstored.recordOf_iff rec).mp (hbackend ▸ hrec)).2
    have hknown : Known (classed kind t)
        (applyBatch (t.captureOf types [] out).batch (t.settle types)) (t.heap.get o).cls rec.oid :=
      known_pending h ho
    have hcls : (t.heap.get o).cls = c := hknown.2.trans hkind
    rw [info, hcls] at henc hnames
    exact Or.inr ⟨o, ho, hcls, henc, hnames⟩

end Store

end DataCrystal
