import DataCrystal.Lib.Raise
import DataCrystal.Backends

/-!
# The Backends Agree

Both backends are driven by the same batches. As long as every batch is plain, they
accept the same ones, a rejected one changes nothing, and everything that is read from
one is read from the other.

The tables of the database are then an image of the dictionaries: the same keys in the
same order, every row with the checksum of its bytes. What a step does to the image is
said for each kind of statement, and the fill of a cell by what it looks like after each
chunk.

A batch that is not plain tells the backends apart. The dictionary backend appends type
rows whatever their ids are, where the table has a primary key and is read in the order
of the ids; and it knows neither the 64 bits of an integer nor the size of a row.

## Main definitions

* `StreamedBlob.Faithful`: A source yields what its size and digest say.
* `CommitBatch.Plain`: A batch both backends can take, if its sources are faithful.
* `Agree`: Everything read from the two is the same.
* `Run`: The two backends after a number of batches.
* `Mirrors`: The database is the image of the dictionaries.

## Theorems

* `mirrors_agree`: An image is read alike.
* `mirrors_apply`: A plain batch keeps the image.
* `backends_agree`: The backends agree along every run of plain batches.
-/

namespace DataCrystal

namespace Storage

/-- A source yields the bytes its size and digest were taken of. It is read a second
    time when the batch is stored, and both backends reject one that does not. -/
def StreamedBlob.Faithful (p : Platform) (sb : StreamedBlob) : Prop :=
  sb.openChunks.raises = false ∧ (sb.openChunks.yielded.flatten.length : ℤ) = sb.size ∧
    p.sha256 sb.openChunks.yielded.flatten = sb.hash

/-- What a source leaves. -/
def StreamedBlob.stored (sb : StreamedBlob) : StoredBlob :=
  ⟨sb.oid, sb.tid, sb.size, sb.hash, sb.openChunks.yielded.flatten⟩

/-- The fields of a type can be told apart in their joined text: none of them holds
    the separator, and there is not one empty field alone, which reads like no
    field. -/
def PlainFields (fields : List Text) : Prop :=
  fields ≠ [[]] ∧ ∀ f ∈ fields, fieldSeparator ∉ f

/-- Every number of a batch has 64 bits and every row fits. SQLite takes no other
    number and no longer row, where a dictionary takes both, so this is half of what
    makes a batch plain. -/
structure CommitBatch.Fits (p : Platform) (b : CommitBatch) : Prop where
  types : ∀ r ∈ b.newTypes, IsInteger r.cid ∧
    p.rowFits [textBytes r.name, textBytes (joinFields r.fields)] = true
  records : ∀ r ∈ b.records, (IsInteger r.oid ∧ IsInteger r.cid ∧ IsInteger r.tid) ∧
    p.rowFits [r.payload.length] = true
  blobs : ∀ x ∈ b.blobs, (IsInteger x.oid ∧ IsInteger x.tid ∧ IsInteger x.size) ∧
    p.rowFits [x.hash.length, x.data.length] = true
  streams : ∀ sb ∈ b.blobStreams, (IsInteger sb.oid ∧ IsInteger sb.tid ∧ IsInteger sb.size) ∧
    p.rowFits [sb.hash.length, sb.size.toNat] = true
  deletes : ∀ oid ∈ b.deletes, IsInteger oid
  metaRows : ∀ e ∈ b.metaRows.entries, p.rowFits [textBytes e.1, textBytes e.2] = true

/-- A batch is plain: if its sources are faithful, its types have new ids in ascending order
    and plain fields, and everything fits. -/
def CommitBatch.Plain (p : Platform) (m : MemoryBackend) (b : CommitBatch) : Prop :=
  (∀ sb ∈ b.blobStreams, sb.Faithful p) →
    ((m.types ++ b.newTypes).map TypeRow.cid).Pairwise (· < ·) ∧
    (∀ r ∈ b.newTypes, PlainFields r.fields) ∧ b.Fits p

/-- Two boots have one result. -/
def SameBoot : Except StorageErr BootInfo → Except StorageErr BootInfo → Prop
  | .ok a, .ok b => (∀ k, a.metaRows.get? k = b.metaRows.get? k) ∧ a.types = b.types
  | .error e, .error f => e = f
  | _, _ => False

/-- Everything read from the two backends is the same: what a boot gets, the records
    of some OIDs, the records of a shape and the bytes of a blob, and no read of the
    database raises. -/
structure Agree (p : Platform) (m : MemoryBackend) (db : Database) : Prop where
  boot : SameBoot (m.boot p) (db.boot p).1
  loadMany : ∀ oids : List ℤ, (∀ oid ∈ oids, IsInteger oid) →
    ∃ out, db.loadMany oids = .ok out ∧ ∀ oid, (m.loadMany oids).get? oid = out.get? oid
  scanType : ∀ cid, IsInteger cid → db.scanType cid = .ok (m.scanType cid)
  loadBlob : ∀ oid, IsInteger oid → db.loadBlob oid = .ok (m.loadBlob oid)

/-- A batch is rejected. -/
def rejects {σ : Type} (r : Except StorageErr Unit × σ) : Bool :=
  match r.1 with
  | .ok _ => false
  | .error _ => true

/-- The two backends, booted and then given the same plain batches. -/
inductive Run (p : Platform) : MemoryBackend → Database → Prop
  | start : Run p {} (Database.boot p {}).2
  | step {m : MemoryBackend} {db : Database} (b : CommitBatch) (hrun : Run p m db)
      (hplain : b.Plain p m) : Run p (m.apply p b).2 (db.apply p b).2

/-- A record as a row. -/
def objectRow (r : StoredRecord) : ObjectRow := ⟨r.cid, r.tid, r.payload, crc32 r.payload 0⟩

/-- An out-of-line value as a row. -/
def blobRow (b : StoredBlob) : BlobRow := ⟨b.tid, b.size, b.hash, crc32 b.data 0, b.data⟩

/-- The database is the image of the dictionaries, and every value in these is filed under
    its own OID. -/
structure Mirrors (m : MemoryBackend) (db : Database) : Prop where
  metaRows : db.metaRows = m.metaRows
  types : db.types.entries = m.types.map fun r => (r.cid, r.name, joinFields r.fields)
  objects : db.objects = m.objects.mapVal fun _ r => objectRow r
  blobs : db.blobs = m.blobs.mapVal fun _ b => blobRow b
  stamped : (m.metaRows.get? versionKey).isSome
  ordered : (m.types.map TypeRow.cid).Pairwise (· < ·)
  plain : ∀ r ∈ m.types, PlainFields r.fields
  filedObjects : ∀ oid r, m.objects.get? oid = some r → r.oid = oid
  filedBlobs : ∀ oid b, m.blobs.get? oid = some b → b.oid = oid

section Reads

variable {p : Platform} {m : MemoryBackend} {db : Database}

theorem splitFields_joinFields {fields : List Text} (h : PlainFields fields) :
    splitFields (joinFields fields) = fields := by
  by_cases hnil : fields = []
  · rw [hnil]
    rfl
  · -- The joined text is empty only if there is one field and it is empty.
    have hjoin : joinFields fields ≠ [] := by
      cases fields with
      | nil => exact absurd rfl hnil
      | cons f fs =>
          cases fs with
          | nil =>
              intro hf
              have : f = [] := by simpa [joinFields] using hf
              exact h.1 (by rw [this])
          | cons g gs => simp [joinFields, List.intercalate_cons_cons]
    rw [splitFields, if_neg hjoin]
    exact List.splitOn_intercalate fieldSeparator h.2 hnil

/-- The table of types is read in order, and so is the list. -/
theorem selectTypes_eq (h : Mirrors m db) : db.selectTypes = m.types := by
  have hsorted : db.types.entries.Pairwise fun e f => e.1 ≤ f.1 := by
    rw [h.types, List.pairwise_map]
    exact (List.pairwise_map.mp h.ordered).imp fun hlt => le_of_lt hlt
  rw [Database.selectTypes, List.Pairwise.insertionSort_eq hsorted, h.types, List.map_map]
  refine (List.map_congr_left fun r hr => ?_).trans (List.map_id _)
  rw [Function.comp, splitFields_joinFields (h.plain r hr), id]

theorem boot_agree (h : Mirrors m db) : SameBoot (m.boot p) (db.boot p).1 := by
  rcases Option.isSome_iff_exists.mp h.stamped with ⟨text, htext⟩
  have hdb : (db.boot p).1 = m.boot p := by
    rw [Database.boot, MemoryBackend.boot, h.metaRows, htext, selectTypes_eq h]
  rw [hdb]
  cases hboot : m.boot p with
  | error e => rfl
  | ok info => exact ⟨fun _ => rfl, rfl⟩

theorem bindInts_ok {ns : List ℤ} (h : ∀ n ∈ ns, IsInteger n) : bindInts ns = .ok () := if_pos h

/-- The row of a record gives the record back. -/
theorem readObject_objectRow {oid : ℤ} {r : StoredRecord} (h : r.oid = oid) :
    Database.readObject (oid, objectRow r) = .ok r := by
  subst h
  simp [Database.readObject, Database.checkCrc, objectRow]

theorem mem_portions (oids : List ℤ) (x : ℤ) :
    x ∈ (Database.portions oids).flatten ↔ x ∈ oids := mem_slices (by decide) oids x

/-- Looking up what was stored for every OID of a list that has a record. -/
theorem memory_loadMany (oids : List ℤ) (k : ℤ) : ∀ out : Dict ℤ StoredRecord,
    (oids.foldl (fun out oid =>
      match m.objects.get? oid with
      | none => out
      | some r => out.set oid r) out).get? k =
      if k ∈ oids then (m.objects.get? k).or (out.get? k) else out.get? k := by
  induction oids with
  | nil => simp
  | cons oid oids ih =>
      intro out
      rw [List.foldl_cons, ih]
      by_cases hk : k = oid
      · subst hk
        cases hr : m.objects.get? k <;> simp
      · have hout : (match m.objects.get? oid with
            | none => out
            | some r => out.set oid r).get? k = out.get? k := by
          cases m.objects.get? oid with
          | none => rfl
          | some r => exact Dict.get?_set_ne out r hk
        rw [hout]
        simp [hk]

/-- One portion of a load. -/
theorem loadPortion_eq (h : Mirrors m db) {portion : List ℤ} (hint : ∀ n ∈ portion, IsInteger n)
    (out : Dict ℤ StoredRecord) : ∃ out', db.loadPortion out portion = .ok out' ∧
      ∀ k, out'.get? k =
        if k ∈ portion then (m.objects.get? k).or (out.get? k) else out.get? k := by
  -- The rows of the portion are the records of the mirror, in their columns.
  have hrows : db.objects.entries.filter (fun e => portion.contains e.1) =
      (m.objects.entries.filter fun e => portion.contains e.1).map fun e =>
        (e.1, objectRow e.2) := by
    rw [h.objects, Dict.mapVal, List.filter_map]
    rfl
  -- Each of them passes its checksum.
  have hread : ∀ e ∈ m.objects.entries, Database.readObject (e.1, objectRow e.2) = .ok e.2 :=
    fun e he => readObject_objectRow (h.filedObjects e.1 e.2 ((Dict.get?_eq_some_iff _ _ _).mpr he))
  have hfold : db.loadPortion out portion =
      .ok ((m.objects.entries.filter fun e => portion.contains e.1).foldl
        (fun out e => out.set e.1 e.2) out) := by
    rw [Database.loadPortion, bindInts_ok hint, hrows, List.foldlM_map]
    refine except_foldlM_ok _ _ fun e he out => ?_
    rw [hread e (List.mem_filter.mp he).1]
    rfl
  refine ⟨_, hfold, fun k => ?_⟩
  have hnd : ((m.objects.entries.filter fun e => portion.contains e.1).map Prod.fst).Nodup :=
    m.objects.nodup.sublist (List.filter_sublist.map _)
  -- A number of the portion has its record, any other keeps what it had.
  by_cases hk : k ∈ portion
  · rw [if_pos hk]
    cases hr : m.objects.get? k with
    | some r =>
        have hmem := (Dict.get?_eq_some_iff _ _ _).mp hr
        exact Dict.get?_foldl_set_of_mem _ k r hnd out
          (List.mem_filter.mpr ⟨hmem, List.contains_iff_mem.mpr hk⟩)
    | none =>
        refine Dict.get?_foldl_set_of_not_mem _ k out fun hc => ?_
        rcases List.mem_map.mp hc with ⟨e, he, rfl⟩
        have hmem := (Dict.get?_eq_some_iff m.objects _ _).mpr (List.mem_filter.mp he).1
        rw [hr] at hmem
        cases hmem
  · rw [if_neg hk]
    refine Dict.get?_foldl_set_of_not_mem _ k out fun hc => ?_
    rcases List.mem_map.mp hc with ⟨e, he, rfl⟩
    exact hk (List.contains_iff_mem.mp (List.mem_filter.mp he).2)

theorem loadMany_agree (h : Mirrors m db) (oids : List ℤ) (hint : ∀ n ∈ oids, IsInteger n) :
    ∃ out, db.loadMany oids = .ok out ∧ ∀ k, (m.loadMany oids).get? k = out.get? k := by
  have hfold : ∀ (ps : List (List ℤ)) (out : Dict ℤ StoredRecord),
      (∀ portion ∈ ps, ∀ n ∈ portion, IsInteger n) →
      ∃ out', ps.foldlM db.loadPortion out = .ok out' ∧ ∀ k, out'.get? k =
        if k ∈ ps.flatten then (m.objects.get? k).or (out.get? k) else out.get? k := by
    intro ps
    induction ps with
    | nil => exact fun out _ => ⟨out, rfl, fun k => by simp⟩
    | cons portion ps ih =>
        intro out hps
        rcases loadPortion_eq h (hps portion List.mem_cons_self) out with ⟨out', hout', hget⟩
        rcases ih out' fun q hq => hps q (List.mem_cons_of_mem _ hq) with ⟨out'', hout'', hget'⟩
        refine ⟨out'', by rw [List.foldlM_cons, hout']; exact hout'', fun k => ?_⟩
        rw [hget', hget]
        by_cases hk : k ∈ portion
        · cases m.objects.get? k <;> simp [hk]
        · simp [hk]
  have hportions : ∀ portion ∈ Database.portions oids, ∀ n ∈ portion, IsInteger n :=
    fun portion hp n hn => hint n ((mem_portions oids n).mp (List.mem_flatten.mpr ⟨_, hp, hn⟩))
  rcases hfold _ Dict.empty hportions with ⟨out, hout, hget⟩
  refine ⟨out, hout, fun k => ?_⟩
  refine (memory_loadMany oids k Dict.empty).trans ?_
  rw [hget]
  simp only [mem_portions]

theorem scanType_agree (h : Mirrors m db) {cid : ℤ} (hcid : IsInteger cid) :
    db.scanType cid = .ok (m.scanType cid) := by
  have hfiled : ∀ e ∈ m.objects.entries, e.2.oid = e.1 := fun e he =>
    h.filedObjects e.1 e.2 ((Dict.get?_eq_some_iff _ _ _).mpr he)
  have hrows : (db.objects.entries.filter fun e => e.2.cid = cid) =
      (m.objects.entries.filter fun e => e.2.cid = cid).map fun e => (e.1, objectRow e.2) := by
    rw [h.objects, Dict.mapVal, List.filter_map]
    rfl
  have hvalues : (m.objects.values.filter fun r => r.cid = cid) =
      (m.objects.entries.filter fun e => e.2.cid = cid).map Prod.snd := by
    rw [Dict.values, List.filter_map]
    rfl
  have hsort : ((m.objects.entries.filter fun e => e.2.cid = cid).insertionSort
      fun e f => e.1 ≤ f.1).map Prod.snd = m.scanType cid := by
    rw [MemoryBackend.scanType, hvalues]
    refine List.map_insertionSort _ _ _ _ fun e he f hf => ?_
    rw [hfiled e (List.mem_filter.mp he).1, hfiled f (List.mem_filter.mp hf).1]
  have himage : (((m.objects.entries.filter fun e => e.2.cid = cid).map fun e =>
      (e.1, objectRow e.2)).insertionSort fun e f => e.1 ≤ f.1) =
      ((m.objects.entries.filter fun e => e.2.cid = cid).insertionSort fun e f =>
        e.1 ≤ f.1).map fun e => (e.1, objectRow e.2) := by
    symm
    exact List.map_insertionSort _ _ _ _ fun e _ f _ => Iff.rfl
  rw [Database.scanType, bindInts_ok (by simpa using hcid), hrows, himage, List.mapM_map, ← hsort]
  refine except_mapM_ok _ fun e he => ?_
  have hmem := (List.mem_filter.mp ((List.mem_insertionSort _).mp he)).1
  exact readObject_objectRow (hfiled e hmem)

theorem loadBlob_agree (h : Mirrors m db) {oid : ℤ} (hoid : IsInteger oid) :
    db.loadBlob oid = .ok (m.loadBlob oid) := by
  rw [Database.loadBlob, bindInts_ok (by simpa using hoid), h.blobs, Dict.get?_mapVal,
    MemoryBackend.loadBlob]
  cases hb : m.blobs.get? oid with
  | none => rfl
  | some b =>
      have hfiled := h.filedBlobs oid b hb
      subst hfiled
      have hcrc : Database.checkCrc (blobRow b).data (blobRow b).crc = .ok () := if_pos rfl
      simp only [Option.map_some, hcrc]
      rfl

/-- An image is read like the dictionaries. -/
theorem mirrors_agree (h : Mirrors m db) : Agree p m db where
  boot := boot_agree h
  loadMany := loadMany_agree h
  scanType _ := scanType_agree h
  loadBlob _ := loadBlob_agree h

end Reads

section Tables

variable {α β : Type} {key : α → ℤ}

theorem mapVal_putAll (f : α → β) (rows : List α) : ∀ d : Dict ℤ α,
    (putAll key d rows).mapVal (fun _ r => f r) =
      rows.foldl (fun d r => d.set (key r) (f r)) (d.mapVal fun _ r => f r) := by
  induction rows with
  | nil => exact fun d => rfl
  | cons r rows ih =>
      intro d
      rw [List.foldl_cons, ← Dict.mapVal_set (fun _ r => f r)]
      exact ih _

theorem mapVal_dropAll (f : α → β) (oids : List ℤ) : ∀ d : Dict ℤ α,
    (dropAll d oids).mapVal (fun _ r => f r) = dropAll (d.mapVal fun _ r => f r) oids := by
  induction oids with
  | nil => exact fun d => rfl
  | cons oid oids ih =>
      intro d
      rw [dropAll, dropAll, List.foldl_cons, List.foldl_cons, ← Dict.mapVal_erase (fun _ r => f r)]
      exact ih _

/-- What is put under its own key is filed under it. -/
theorem filed_putAll (rows : List α) : ∀ d : Dict ℤ α, (∀ k r, d.get? k = some r → key r = k) →
    ∀ k r, (putAll key d rows).get? k = some r → key r = k := by
  induction rows with
  | nil => exact fun d h => h
  | cons x rows ih =>
      intro d h
      refine ih _ fun k r hr => ?_
      rw [Dict.get?_set] at hr
      split_ifs at hr with hk
      · cases hr
        exact hk.symm
      · exact h k r hr

theorem filed_dropAll (oids : List ℤ) : ∀ d : Dict ℤ α, (∀ k r, d.get? k = some r → key r = k) →
    ∀ k r, (dropAll d oids).get? k = some r → key r = k := by
  induction oids with
  | nil => exact fun d h => h
  | cons oid oids ih =>
      intro d h
      refine ih _ fun k r hr => ?_
      rw [Dict.get?_erase] at hr
      split_ifs at hr with hk
      exact h k r hr

theorem entries_set_of_new {κ : Type} [DecidableEq κ] {d : Dict κ α} {k : κ} (h : k ∉ d.keys)
    (v : α) : (d.set k v).entries = d.entries ++ [(k, v)] := by
  rw [Dict.set, dif_neg h]

end Tables

section Cells

/-- A cell of a declared size, filled with some bytes so far. -/
def filled (size : ℤ) (done : Bytes) : Fill :=
  ⟨done ++ List.replicate (size.toNat - done.length) 0, done.length, crc32 done 0, done⟩

variable {size : ℤ} {done chunk : Bytes}

theorem writeAt_filled :
    Database.writeAt (filled size done).cell done.length chunk = (filled size (done ++ chunk)).cell := by
  have hhead : (done ++ List.replicate (size.toNat - done.length) (0 : UInt8)).take done.length =
      done := List.take_left
  have htail : (done ++ List.replicate (size.toNat - done.length) (0 : UInt8)).drop
      (done.length + chunk.length) =
      List.replicate (size.toNat - (done ++ chunk).length) 0 := by
    rw [← List.drop_drop, List.drop_left, List.drop_replicate, List.length_append, Nat.sub_sub]
  rw [Database.writeAt, filled, hhead, htail]
  rfl

/-- A chunk that fits goes after the ones before it. -/
theorem fillChunk_filled (h : ((done ++ chunk).length : ℤ) ≤ size) :
    Database.fillChunk size (filled size done) chunk = .ok (filled size (done ++ chunk)) := by
  have hroom : ¬size < ((filled size done).written : ℤ) + (chunk.length : ℤ) := by
    rw [List.length_append, Nat.cast_add] at h
    exact not_lt.mpr h
  rw [Database.fillChunk, if_neg hroom]
  refine congrArg Except.ok ?_
  have hcell := @writeAt_filled size done chunk
  rw [filled] at hcell ⊢
  simp only at hcell ⊢
  rw [hcell, ← crc32_append, filled, List.length_append]

/-- A chunk that was written fitted. -/
theorem fillChunk_ok {f : Fill} (h : Database.fillChunk size (filled size done) chunk = .ok f) :
    ((done ++ chunk).length : ℤ) ≤ size := by
  rw [Database.fillChunk] at h
  split_ifs at h with hroom
  rw [List.length_append, Nat.cast_add]
  exact not_lt.mp hroom

/-- The chunks of a source that all fit. -/
theorem fillChunks_filled (chunks : List Bytes) : ∀ done : Bytes,
    ((done ++ chunks.flatten).length : ℤ) ≤ size →
    chunks.foldlM (Database.fillChunk size) (filled size done) =
      .ok (filled size (done ++ chunks.flatten)) := by
  induction chunks with
  | nil =>
      intro done _
      rw [List.flatten_nil, List.append_nil]
      rfl
  | cons chunk chunks ih =>
      intro done h
      rw [List.flatten_cons, ← List.append_assoc] at h ⊢
      have hfirst : ((done ++ chunk).length : ℤ) ≤ size := by
        rw [List.length_append, Nat.cast_add] at h
        omega
      rw [List.foldlM_cons, fillChunk_filled hfirst]
      exact ih _ h

/-- Whatever the chunks are, a loop that ends has written them all. -/
theorem filled_of_fillChunks (chunks : List Bytes) : ∀ (done : Bytes) (f : Fill),
    chunks.foldlM (Database.fillChunk size) (filled size done) = .ok f →
      f = filled size (done ++ chunks.flatten) := by
  induction chunks with
  | nil =>
      intro done f h
      cases h
      rw [List.flatten_nil, List.append_nil]
  | cons chunk chunks ih =>
      intro done f h
      rw [List.foldlM_cons] at h
      rcases except_bind_ok_iff.mp h with ⟨g, hg, hrest⟩
      rw [fillChunk_filled (fillChunk_ok hg)] at hg
      cases hg
      rw [List.flatten_cons, ← List.append_assoc]
      exact ih _ f hrest

theorem filled_nil : (⟨List.replicate size.toNat 0, 0, 0, []⟩ : Fill) = filled size [] := by
  simp [filled, crc32_nil]

variable {p : Platform} {sb : StreamedBlob}

/-- A faithful source fills its cell. -/
theorem fillStream_of_faithful (hint : IsInteger sb.oid ∧ IsInteger sb.tid ∧ IsInteger sb.size)
    (hfit : p.rowFits [sb.hash.length, sb.size.toNat] = true) (h : sb.Faithful p) (db : Database) :
    Database.fillStream p db sb =
      .ok { db with blobs := db.blobs.set sb.oid (blobRow sb.stored) } := by
  have hbind : bindInts [sb.oid, sb.tid, sb.size] = .ok () := bindInts_ok (by simpa using hint)
  have hrow : fitRow p [sb.hash.length, sb.size.toNat] = .ok () := if_pos hfit
  have hfill := @fillChunks_filled sb.size sb.openChunks.yielded [] (by
    rw [List.nil_append]
    exact le_of_eq h.2.1)
  rw [List.nil_append] at hfill
  have hlen : ((filled sb.size sb.openChunks.yielded.flatten).written : ℤ) = sb.size := h.2.1
  have hcell : (filled sb.size sb.openChunks.yielded.flatten).cell =
      sb.openChunks.yielded.flatten := by
    have hzero : sb.size.toNat - sb.openChunks.yielded.flatten.length = 0 := by
      have := h.2.1
      omega
    rw [filled, hzero, List.replicate_zero, List.append_nil]
  have hhash : p.sha256 (filled sb.size sb.openChunks.yielded.flatten).hashed = sb.hash := h.2.2
  rw [← filled_nil] at hfill
  refine except_bind_ok_iff.mpr ⟨(), hbind, except_bind_ok_iff.mpr ⟨(), hrow,
    except_bind_ok_iff.mpr ⟨_, hfill, ?_⟩⟩⟩
  rw [if_neg (by rw [h.1]; decide), if_neg (not_not.mpr hlen), if_neg (not_not.mpr hhash), hcell,
    Dict.set_set]
  rfl

/-- A source that filled its cell is faithful. -/
theorem faithful_of_fillStream {db db' : Database} (h : Database.fillStream p db sb = .ok db') :
    sb.Faithful p := by
  rw [Database.fillStream] at h
  rcases except_bind_ok_iff.mp h with ⟨_, -, h⟩
  rcases except_bind_ok_iff.mp h with ⟨_, -, h⟩
  rcases except_bind_ok_iff.mp h with ⟨f, hf, h⟩
  rw [filled_nil] at hf
  have hfilled := filled_of_fillChunks _ _ f hf
  rw [List.nil_append] at hfilled
  subst hfilled
  by_cases hraise : sb.openChunks.raises = true
  · rw [if_pos hraise] at h
    cases h
  · rw [if_neg hraise] at h
    by_cases hlen : ((filled sb.size sb.openChunks.yielded.flatten).written : ℤ) ≠ sb.size
    · rw [if_pos hlen] at h
      cases h
    · rw [if_neg hlen] at h
      by_cases hhash : p.sha256 (filled sb.size sb.openChunks.yielded.flatten).hashed ≠ sb.hash
      · rw [if_pos hhash] at h
        cases h
      · exact ⟨Bool.not_eq_true _ ▸ hraise, not_not.mp hlen, not_not.mp hhash⟩

end Cells

section Statements

variable {p : Platform}

theorem fitRow_ok {sizes : List Nat} (h : p.rowFits sizes = true) : fitRow p sizes = .ok () :=
  if_pos h

/-- Type rows with new ids in ascending order go to the end of the table. -/
theorem insertTypes_ok (rows : List TypeRow) : ∀ (db : Database) (base : List TypeRow),
    (db.types.entries = base.map fun r => (r.cid, r.name, joinFields r.fields)) →
    ((base ++ rows).map TypeRow.cid).Pairwise (· < ·) →
    (∀ r ∈ rows, IsInteger r.cid ∧
      p.rowFits [textBytes r.name, textBytes (joinFields r.fields)] = true) →
    ∃ types, rows.foldlM (Database.insertType p) db = .ok { db with types := types } ∧
      types.entries = (base ++ rows).map fun r => (r.cid, r.name, joinFields r.fields) := by
  induction rows with
  | nil =>
      intro db base hbase _ _
      exact ⟨db.types, rfl, by rw [List.append_nil, hbase]⟩
  | cons r rows ih =>
      intro db base hbase hord hfits
      -- Class ids grow, so this one is not in the table yet.
      have hnew : r.cid ∉ db.types.keys := by
        rw [Dict.keys, hbase, List.map_map]
        intro hc
        rcases List.mem_map.mp hc with ⟨b, hb, hcid⟩
        rw [List.map_append, List.pairwise_append] at hord
        have hlt := hord.2.2 _ (List.mem_map_of_mem hb) r.cid (by simp)
        exact absurd hcid (ne_of_lt hlt)
      -- A fresh row is inserted as it is.
      have hstep : Database.insertType p db r =
          .ok { db with types := db.types.set r.cid (r.name, joinFields r.fields) } := by
        have hfit := hfits r List.mem_cons_self
        have hcontains : ¬db.types.contains r.cid = true := fun h =>
          hnew ((Dict.contains_iff _ _).mp h)
        refine except_bind_ok_iff.mpr ⟨(), bindInts_ok (by simpa using hfit.1),
          except_bind_ok_iff.mpr ⟨(), fitRow_ok hfit.2, ?_⟩⟩
        rw [if_neg hcontains]
        rfl
      have hentries := entries_set_of_new hnew (r.name, joinFields r.fields)
      -- The rest goes in behind it.
      rcases ih { db with types := db.types.set r.cid (r.name, joinFields r.fields) } (base ++ [r])
        (by rw [hentries, hbase, List.map_append]; rfl)
        (by rw [List.append_assoc]; exact hord)
        (fun x hx => hfits x (List.mem_cons_of_mem r hx)) with ⟨types, hfold, htypes⟩
      refine ⟨types, ?_, ?_⟩
      · rw [List.foldlM_cons, hstep]
        exact hfold
      · rw [htypes, List.append_assoc]
        rfl

theorem foldl_objects {α : Type} (g : Dict ℤ ObjectRow → α → Dict ℤ ObjectRow) (xs : List α) :
    ∀ db : Database, xs.foldl (fun db x => { db with objects := g db.objects x }) db =
      { db with objects := xs.foldl g db.objects } := by
  induction xs with
  | nil => exact fun db => rfl
  | cons x xs ih => exact fun db => ih _

theorem foldl_blobs {α : Type} (g : Dict ℤ BlobRow → α → Dict ℤ BlobRow) (xs : List α) :
    ∀ db : Database, xs.foldl (fun db x => { db with blobs := g db.blobs x }) db =
      { db with blobs := xs.foldl g db.blobs } := by
  induction xs with
  | nil => exact fun db => rfl
  | cons x xs ih => exact fun db => ih _

theorem foldl_metaRows {α : Type} (g : Dict Text Text → α → Dict Text Text) (xs : List α) :
    ∀ db : Database, xs.foldl (fun db x => { db with metaRows := g db.metaRows x }) db =
      { db with metaRows := xs.foldl g db.metaRows } := by
  induction xs with
  | nil => exact fun db => rfl
  | cons x xs ih => exact fun db => ih _

/-- The sources of a batch are read in memory exactly when they are faithful. -/
theorem materialize_of_faithful (sbs : List StreamedBlob) (h : ∀ sb ∈ sbs, sb.Faithful p) :
    MemoryBackend.materialize p sbs = .ok (sbs.map StreamedBlob.stored) := by
  induction sbs with
  | nil => rfl
  | cons sb sbs ih =>
      have hsb := h sb List.mem_cons_self
      have hrest := ih fun x hx => h x (List.mem_cons_of_mem sb hx)
      rw [MemoryBackend.materialize, if_neg (by rw [hsb.1]; decide), if_neg (not_not.mpr hsb.2.1),
        if_neg (not_not.mpr hsb.2.2), hrest]
      rfl

theorem faithful_of_materialize (sbs : List StreamedBlob) : ∀ streamed,
    MemoryBackend.materialize p sbs = .ok streamed → ∀ sb ∈ sbs, sb.Faithful p := by
  induction sbs with
  | nil => exact fun _ _ sb hsb => absurd hsb List.not_mem_nil
  | cons sb sbs ih =>
      intro streamed h
      rw [MemoryBackend.materialize] at h
      by_cases hraise : sb.openChunks.raises = true
      · rw [if_pos hraise] at h
        cases h
      · rw [if_neg hraise] at h
        by_cases hlen : (sb.openChunks.yielded.flatten.length : ℤ) ≠ sb.size
        · rw [if_pos hlen] at h
          cases h
        · rw [if_neg hlen] at h
          by_cases hhash : p.sha256 sb.openChunks.yielded.flatten ≠ sb.hash
          · rw [if_pos hhash] at h
            cases h
          · rw [if_neg hhash] at h
            rcases except_bind_ok_iff.mp h with ⟨rest, hrest, -⟩
            intro x hx
            rcases List.mem_cons.mp hx with rfl | hx
            · exact ⟨Bool.not_eq_true _ ▸ hraise, not_not.mp hlen, not_not.mp hhash⟩
            · exact ih rest hrest x hx

variable {b : CommitBatch} {m : MemoryBackend} {db : Database}

theorem replaceObjects_ok (hfits : b.Fits p) (db : Database) :
    b.records.foldlM (Database.replaceObject p) db = .ok { db with
      objects := b.records.foldl (fun d r => d.set r.oid (objectRow r)) db.objects } := by
  rw [← foldl_objects (fun d (r : StoredRecord) => d.set r.oid (objectRow r))]
  refine except_foldlM_ok _ _ fun r hr db => ?_
  have hfit := hfits.records r hr
  exact except_bind_ok_iff.mpr ⟨(), bindInts_ok (by simpa using hfit.1),
    except_bind_ok_iff.mpr ⟨(), fitRow_ok hfit.2, rfl⟩⟩

theorem replaceBlobs_ok (hfits : b.Fits p) (db : Database) :
    b.blobs.foldlM (Database.replaceBlob p) db = .ok { db with
      blobs := b.blobs.foldl (fun d x => d.set x.oid (blobRow x)) db.blobs } := by
  rw [← foldl_blobs (fun d (x : StoredBlob) => d.set x.oid (blobRow x))]
  refine except_foldlM_ok _ _ fun x hx db => ?_
  have hfit := hfits.blobs x hx
  exact except_bind_ok_iff.mpr ⟨(), bindInts_ok (by simpa using hfit.1),
    except_bind_ok_iff.mpr ⟨(), fitRow_ok hfit.2, rfl⟩⟩

theorem fillStreams_ok (hfits : b.Fits p) (hfaithful : ∀ sb ∈ b.blobStreams, sb.Faithful p)
    (db : Database) : b.blobStreams.foldlM (Database.fillStream p) db = .ok { db with
      blobs := b.blobStreams.foldl (fun d sb => d.set sb.oid (blobRow sb.stored)) db.blobs } := by
  rw [← foldl_blobs (fun d (sb : StreamedBlob) => d.set sb.oid (blobRow sb.stored))]
  refine except_foldlM_ok _ _ fun sb hsb db => ?_
  have hfit := hfits.streams sb hsb
  exact fillStream_of_faithful hfit.1 hfit.2 (hfaithful sb hsb) db

theorem deleteObjects_ok (hfits : b.Fits p) (db : Database) :
    b.deletes.foldlM Database.deleteObject db = .ok { db with
      objects := dropAll db.objects b.deletes } := by
  rw [dropAll, ← foldl_objects Dict.erase]
  refine except_foldlM_ok _ _ fun oid hoid db => ?_
  exact except_bind_ok_iff.mpr ⟨(), bindInts_ok (by simpa using hfits.deletes oid hoid), rfl⟩

theorem replaceMetas_ok (hfits : b.Fits p) (db : Database) :
    b.metaRows.entries.foldlM (Database.replaceMeta p) db = .ok { db with
      metaRows := b.metaRows.entries.foldl (fun d e => d.set e.1 e.2) db.metaRows } := by
  rw [← foldl_metaRows (fun d (e : Text × Text) => d.set e.1 e.2)]
  refine except_foldlM_ok _ _ fun e he db => ?_
  exact except_bind_ok_iff.mpr ⟨(), fitRow_ok (hfits.metaRows e he), rfl⟩

/-- The statements of a batch whose rows all fit, on an image. -/
theorem statements_ok (h : Mirrors m db) (hfaithful : ∀ sb ∈ b.blobStreams, sb.Faithful p)
    (hord : ((m.types ++ b.newTypes).map TypeRow.cid).Pairwise (· < ·)) (hfits : b.Fits p) :
    ∃ types, Database.statements p b db = .ok
        { metaRows := b.metaRows.entries.foldl (fun d e => d.set e.1 e.2) db.metaRows
          types := types
          objects := dropAll (b.records.foldl (fun d r => d.set r.oid (objectRow r)) db.objects)
            b.deletes
          blobs := b.blobStreams.foldl (fun d sb => d.set sb.oid (blobRow sb.stored))
            (b.blobs.foldl (fun d x => d.set x.oid (blobRow x)) db.blobs) } ∧
      types.entries =
        (m.types ++ b.newTypes).map fun r => (r.cid, r.name, joinFields r.fields) := by
  rcases insertTypes_ok b.newTypes db m.types h.types hord hfits.types with ⟨types, htypes, hentries⟩
  refine ⟨types, ?_, hentries⟩
  rw [Database.statements, htypes]
  exact except_bind_ok_iff.mpr ⟨_, rfl, except_bind_ok_iff.mpr ⟨_, replaceObjects_ok hfits _,
    except_bind_ok_iff.mpr ⟨_, replaceBlobs_ok hfits _, except_bind_ok_iff.mpr
      ⟨_, fillStreams_ok hfits hfaithful _, except_bind_ok_iff.mpr
        ⟨_, deleteObjects_ok hfits _, replaceMetas_ok hfits _⟩⟩⟩⟩⟩

/-- The sources of a batch that is taken on disk are faithful. -/
theorem faithful_of_statements {db' : Database} (h : Database.statements p b db = .ok db') :
    ∀ sb ∈ b.blobStreams, sb.Faithful p := by
  rcases except_bind_ok_iff.mp h with ⟨_, -, h⟩
  rcases except_bind_ok_iff.mp h with ⟨_, -, h⟩
  rcases except_bind_ok_iff.mp h with ⟨_, -, h⟩
  rcases except_bind_ok_iff.mp h with ⟨_, hstreams, -⟩
  intro sb hsb
  rcases except_foldlM_mem hstreams sb hsb with ⟨_, _, hone⟩
  exact faithful_of_fillStream hone

/-- A plain batch is taken or rejected by both, and the database stays the image. -/
theorem mirrors_apply (h : Mirrors m db) (hplain : b.Plain p m) :
    rejects (db.apply p b) = rejects (m.apply p b) ∧ Mirrors (m.apply p b).2 (db.apply p b).2 := by
  by_cases hfaithful : ∀ sb ∈ b.blobStreams, sb.Faithful p
  · rcases hplain hfaithful with ⟨hord, hfields, hfits⟩
    -- Every statement of the transaction goes through.
    rcases statements_ok h hfaithful hord hfits with ⟨types, hstatements, hentries⟩
    rw [MemoryBackend.apply, materialize_of_faithful _ hfaithful, Database.apply,
      Database.transaction, hstatements]
    refine ⟨rfl, ?_⟩
    constructor
    · simp only [h.metaRows]
    · exact hentries
    · simp only
      rw [mapVal_dropAll, mapVal_putAll, h.objects]
    · simp only
      rw [mapVal_putAll, mapVal_putAll, h.blobs, List.foldl_map]
      rfl
    · rw [Dict.isSome_get?_iff, Dict.mem_keys_foldl_set, ← Dict.isSome_get?_iff]
      exact .inl h.stamped
    · exact hord
    · intro r hr
      rcases List.mem_append.mp hr with hr | hr
      · exact h.plain r hr
      · exact hfields r hr
    · exact filed_dropAll _ _ (filed_putAll _ _ h.filedObjects)
    · exact filed_putAll _ _ (filed_putAll _ _ h.filedBlobs)
  · -- Both reject, whichever of their steps does.
    have hmemory : ∃ e, MemoryBackend.materialize p b.blobStreams = .error e := by
      cases hm : MemoryBackend.materialize p b.blobStreams with
      | error e => exact ⟨e, rfl⟩
      | ok streamed => exact absurd (faithful_of_materialize _ _ hm) hfaithful
    have hdisk : ∃ e, Database.statements p b db = .error e := by
      cases hd : Database.statements p b db with
      | error e => exact ⟨e, rfl⟩
      | ok db' => exact absurd (faithful_of_statements hd) hfaithful
    rcases hmemory with ⟨e, hm⟩
    rcases hdisk with ⟨f, hd⟩
    rw [MemoryBackend.apply, hm, Database.apply, Database.transaction, hd]
    exact ⟨rfl, h⟩

/-- A rejected batch changes nothing in memory. -/
theorem memory_unchanged (h : rejects (m.apply p b) = true) : (m.apply p b).2 = m := by
  rw [MemoryBackend.apply] at h ⊢
  cases hm : MemoryBackend.materialize p b.blobStreams with
  | error e => rfl
  | ok streamed =>
      rw [hm] at h
      cases h

/-- A rejected batch changes nothing on disk. -/
theorem database_unchanged (h : rejects (db.apply p b) = true) : (db.apply p b).2 = db := by
  rw [Database.apply, Database.transaction] at h ⊢
  cases hd : Database.statements p b db with
  | error e => rfl
  | ok db' =>
      rw [hd] at h
      cases h

end Statements

section Main

variable {p : Platform} {m : MemoryBackend} {db : Database}

/-- Two fresh backends. -/
theorem mirrors_start (p : Platform) : Mirrors {} (Database.boot p {}).2 where
  metaRows := rfl
  types := rfl
  objects := rfl
  blobs := rfl
  stamped := by rw [Dict.get?_set_self]; rfl
  ordered := List.Pairwise.nil
  plain := fun _ hr => absurd hr List.not_mem_nil
  filedObjects := fun _ _ hr => by cases hr
  filedBlobs := fun _ _ hb => by cases hb

theorem mirrors_of_run (hrun : Run p m db) : Mirrors m db := by
  induction hrun with
  | start => exact mirrors_start p
  | step b hrun hplain ih => exact (mirrors_apply ih hplain).2

/-- Along every run of plain batches the backends agree: everything read from them is the
    same, they take or reject the next plain batch together, and rejecting it changes
    neither. -/
theorem backends_agree (hrun : Run p m db) : Agree p m db ∧ ∀ b : CommitBatch, b.Plain p m →
    rejects (db.apply p b) = rejects (m.apply p b) ∧
    (rejects (m.apply p b) = true → (m.apply p b).2 = m ∧ (db.apply p b).2 = db) ∧
    Agree p (m.apply p b).2 (db.apply p b).2 := by
  have hmirrors := mirrors_of_run hrun
  refine ⟨mirrors_agree hmirrors, fun b hplain => ?_⟩
  have happly := mirrors_apply hmirrors hplain
  refine ⟨happly.1, fun h => ⟨memory_unchanged h, database_unchanged ?_⟩, mirrors_agree happly.2⟩
  rw [happly.1, h]

/-- A platform where every row fits. -/
def roomy : Platform where
  sha256 := id
  intOf := fun _ => some formatVersion
  rowFits := fun _ => true

/-- A type, a record of it, and an out-of-line value that is streamed in two chunks. -/
def firstBatch : CommitBatch where
  newTypes := [⟨1, ['A'], [['x']]⟩]
  records := [⟨2 ^ 40, 1, 1, [7]⟩]
  blobStreams := [⟨2 ^ 40 + 1, 1, 2, [8, 9], ⟨[[8], [9]], false⟩⟩]

/-- A source that runs short. -/
def shortBatch : CommitBatch where
  blobStreams := [⟨2 ^ 40 + 2, 2, 2, [8, 9], ⟨[[8]], false⟩⟩]

theorem firstBatch_plain : firstBatch.Plain roomy {} := by
  intro _
  refine ⟨by decide, ?_, ?_⟩
  · intro r hr
    rw [List.mem_singleton.mp hr]
    exact ⟨by decide, by decide⟩
  · constructor <;> intro x hx
    · rw [List.mem_singleton.mp hx]
      exact ⟨by decide, rfl⟩
    · rw [List.mem_singleton.mp hx]
      exact ⟨by decide, rfl⟩
    · exact absurd hx List.not_mem_nil
    · rw [List.mem_singleton.mp hx]
      exact ⟨by decide, rfl⟩
    · exact absurd hx List.not_mem_nil
    · rfl

theorem shortBatch_faithless : ¬∀ sb ∈ shortBatch.blobStreams, sb.Faithful roomy := by
  intro h
  have hlen := (h _ List.mem_cons_self).2.1
  exact absurd hlen (by decide)

/-- After a batch that was taken, a source that runs short is rejected by both. -/
theorem backends_agree_on_short_source :
    rejects ((Database.apply roomy (Database.boot roomy {}).2 firstBatch).2.apply roomy
      shortBatch) = true ∧
    Agree roomy (MemoryBackend.apply roomy {} firstBatch).2
      (Database.apply roomy (Database.boot roomy {}).2 firstBatch).2 := by
  have hagree := backends_agree (Run.step firstBatch Run.start firstBatch_plain)
  refine ⟨?_, hagree.1⟩
  rw [(hagree.2 shortBatch fun h => absurd h shortBatch_faithless).1]
  decide

/-- Two type rows with one id. -/
def repeatedType : CommitBatch where
  newTypes := [⟨1, ['A'], [['x']]⟩, ⟨1, ['B'], [['x']]⟩]

/-- The backend in memory takes a batch that repeats a type id, the one on disk does not. -/
theorem repeated_type_told_apart :
    rejects ((Database.boot roomy {}).2.apply roomy repeatedType) = true ∧
      rejects (MemoryBackend.apply roomy {} repeatedType) = false := by decide

end Main

end Storage

end DataCrystal
