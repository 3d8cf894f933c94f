import Mathlib.Data.List.Sort
import DataCrystal.Records

/-!
# Storage

What is durable: the records, the type dictionary and the high-water marks. A
commit reaches storage as one batch, which is applied whole or not at all.

Every record is filed under the id of the field shape it was written in, and a
scan of one shape meets its records in the order of their OIDs.

## Main definitions

* `Meta`: The high-water marks and the root.
* `CommitBatch`: What one commit persists.
* `Backend`: The durable state.
* `Backend.apply`: Applying a batch.
* `Backend.scanType`: The records of one shape.

## Theorems

* `get?_apply_of_deleted`, `get?_apply_of_record`, `get?_apply_other`: The
  record under an OID after a batch.
* `mem_scanType`: What a scan meets.
-/

namespace DataCrystal

/-- The first OID of a store, far above any class id. -/
def oidBase : Nat := 2 ^ 40

/-- The persisted high-water marks and the root. -/
structure Meta where
  nextOid : Nat := oidBase
  nextCid : Nat := 1
  nextTid : Nat := 1
  rootOid : Option Nat := none
  deriving DecidableEq

/-- A row of the type dictionary: a shape id, its class and its fields. -/
abbrev TypeRow := Nat × String × List String

/-- What one commit persists. -/
structure CommitBatch where
  tid : Nat
  records : List StoredRecord
  newTypes : List TypeRow
  marks : Meta
  deletes : List Nat
  /-- The bytes of the out-of-line fields, under their OIDs. -/
  blobs : List (Nat × List Nat)
  /-- Those of them that are streamed in. -/
  streams : List Nat := []

/-- The durable state. -/
structure Backend where
  objects : Dict Nat StoredRecord := Dict.empty
  types : List TypeRow := []
  marks : Meta := {}
  blobs : Dict Nat (List Nat) := Dict.empty

namespace Backend

instance : Inhabited Backend := ⟨{}⟩

/-- Apply a batch. -/
def apply (b : Backend) (batch : CommitBatch) : Backend where
  objects := batch.deletes.foldl Dict.erase
    (batch.records.foldl (fun d r => d.set r.oid r) b.objects)
  types := b.types ++ batch.newTypes
  marks := batch.marks
  blobs := batch.blobs.foldl (fun d e => d.set e.1 e.2) b.blobs

/-- The records of one shape by ascending OID. -/
def scanType (b : Backend) (cid : Nat) : List StoredRecord :=
  (b.objects.values.filter fun r => r.cid = cid).insertionSort fun r r' => r.oid ≤ r'.oid

/-- The class a shape belongs to. -/
def typenameOf (b : Backend) (cid : Nat) : Option String :=
  (b.types.find? fun row => row.1 = cid).map fun row => row.2.1

/-- The fields of a shape id. -/
def fieldsOf (b : Backend) (cid : Nat) : List String :=
  ((b.types.find? fun row => row.1 = cid).map fun row => row.2.2).getD []

/-- The shapes of a class, oldest first. -/
def lineageOf (b : Backend) (c : String) : Lineage :=
  (b.types.filter fun row => row.2.1 = c).map fun row => (row.1, row.2.2)

/-- Every record is stored under its own OID. -/
def Filed (b : Backend) : Prop := ∀ oid rec, b.objects.get? oid = some rec → rec.oid = oid

variable {b : Backend} {batch : CommitBatch} {oid : Nat}

theorem get?_foldl_erase (ks : List Nat) (k : Nat) : ∀ d : Dict Nat StoredRecord,
    (ks.foldl Dict.erase d).get? k = if k ∈ ks then none else d.get? k := by
  induction ks with
  | nil => exact fun d => rfl
  | cons j ks ih =>
      intro d
      rw [List.foldl_cons, ih, Dict.get?_erase]
      by_cases hk : k ∈ ks
      · simp [hk]
      · by_cases hj : k = j
        · simp [hj]
        · simp [hk, hj]

theorem get?_foldl_records (rs : List StoredRecord) (k : Nat) : ∀ d : Dict Nat StoredRecord,
    (rs.foldl (fun d r => d.set r.oid r) d).get? k =
      ((rs.reverse.find? fun r => r.oid = k).or (d.get? k)) := by
  induction rs with
  | nil => exact fun d => by simp
  | cons r rs ih =>
      intro d
      rw [List.foldl_cons, ih, Dict.get?_set, List.reverse_cons, List.find?_append]
      cases hfind : rs.reverse.find? fun r => r.oid = k with
      | some r' => simp
      | none =>
          by_cases hk : k = r.oid
          · simp [hk]
          · have hk' : ¬r.oid = k := fun hc => hk hc.symm
            simp [hk, hk']

/-- A deleted record is gone. -/
theorem get?_apply_of_deleted (h : oid ∈ batch.deletes) :
    (b.apply batch).objects.get? oid = none := by
  rw [apply, get?_foldl_erase, if_pos h]

/-- A written record is there, unless the batch deletes it too. -/
theorem get?_apply_of_record {rec : StoredRecord} (hnd : (batch.records.map StoredRecord.oid).Nodup)
    (h : rec ∈ batch.records) (hdel : rec.oid ∉ batch.deletes) :
    (b.apply batch).objects.get? rec.oid = some rec := by
  rw [apply, get?_foldl_erase, if_neg hdel, get?_foldl_records]
  have hfind : (batch.records.reverse.find? fun r => r.oid = rec.oid) = some rec := by
    cases hf : batch.records.reverse.find? fun r => r.oid = rec.oid with
    | none =>
        rw [List.find?_eq_none] at hf
        exact absurd (decide_eq_true rfl) (hf rec (List.mem_reverse.mpr h))
    | some r =>
        have hr : r.oid = rec.oid := by simpa using List.find?_some hf
        rw [List.inj_on_of_nodup_map hnd (List.mem_reverse.mp (List.mem_of_find?_eq_some hf)) h hr]
  rw [hfind]
  rfl

/-- A record the batch does not name is as it was. -/
theorem get?_apply_other (hrec : ∀ r ∈ batch.records, r.oid ≠ oid) (hdel : oid ∉ batch.deletes) :
    (b.apply batch).objects.get? oid = b.objects.get? oid := by
  rw [apply, get?_foldl_erase, if_neg hdel, get?_foldl_records]
  have hnone : (batch.records.reverse.find? fun r => r.oid = oid) = none := by
    rw [List.find?_eq_none]
    intro r hr hc
    exact hrec r (List.mem_reverse.mp hr) (by simpa using hc)
  rw [hnone]
  rfl

/-- A record is there after a batch because it was written or because it was
    there before. -/
theorem get?_apply_eq_some {rec : StoredRecord}
    (h : (b.apply batch).objects.get? oid = some rec) :
    oid ∉ batch.deletes ∧ ((rec ∈ batch.records ∧ rec.oid = oid) ∨
      ((∀ r ∈ batch.records, r.oid ≠ oid) ∧ b.objects.get? oid = some rec)) := by
  rw [apply, get?_foldl_erase] at h
  by_cases hdel : oid ∈ batch.deletes
  · rw [if_pos hdel] at h
    simp at h
  · rw [if_neg hdel, get?_foldl_records] at h
    refine ⟨hdel, ?_⟩
    cases hfind : batch.records.reverse.find? fun r => r.oid = oid with
    | some r =>
        rw [hfind, Option.some_or, Option.some.injEq] at h
        rw [← h]
        exact Or.inl ⟨List.mem_reverse.mp (List.mem_of_find?_eq_some hfind),
          by simpa using List.find?_some hfind⟩
    | none =>
        rw [hfind, Option.none_or] at h
        rw [List.find?_eq_none] at hfind
        exact Or.inr ⟨fun r hr hc => hfind r (List.mem_reverse.mpr hr) (by simpa using hc), h⟩

/-- A record that is gone after a batch was deleted by it. -/
theorem deleted_of_get?_apply_eq_none (h : (b.apply batch).objects.get? oid = none)
    (hold : b.objects.get? oid ≠ none) : oid ∈ batch.deletes := by
  by_contra hdel
  rw [apply, get?_foldl_erase, if_neg hdel, get?_foldl_records, Option.or_eq_none_iff] at h
  exact hold h.2

/-- A scan meets the records filed under the shape. -/
theorem mem_scanType (hf : b.Filed) (cid : Nat) (rec : StoredRecord) :
    rec ∈ b.scanType cid ↔ b.objects.get? rec.oid = some rec ∧ rec.cid = cid := by
  rw [scanType, List.mem_insertionSort, List.mem_filter, decide_eq_true_eq]
  refine and_congr_left fun _ => ?_
  rw [Dict.values, List.mem_map]
  constructor
  · rintro ⟨⟨k, r⟩, hmem, rfl⟩
    have hk : r.oid = k := hf k r ((Dict.get?_eq_some_iff _ _ _).mpr hmem)
    rw [hk]
    exact (Dict.get?_eq_some_iff _ _ _).mpr hmem
  · intro h
    exact ⟨(rec.oid, rec), (Dict.get?_eq_some_iff _ _ _).mp h, rfl⟩

/-- A scan meets every OID once. -/
theorem scanType_nodup (hf : b.Filed) (cid : Nat) :
    ((b.scanType cid).map StoredRecord.oid).Nodup := by
  have hperm : (b.scanType cid).Perm (b.objects.values.filter fun r => r.cid = cid) :=
    List.perm_insertionSort _ _
  rw [(hperm.map StoredRecord.oid).nodup_iff]
  refine List.Nodup.sublist (List.filter_sublist.map _) ?_
  have hkeys : b.objects.values.map StoredRecord.oid = b.objects.keys := by
    rw [Dict.values, Dict.keys, List.map_map]
    refine List.map_congr_left fun e he => ?_
    exact hf e.1 e.2 ((Dict.get?_eq_some_iff _ _ _).mpr he)
  rw [hkeys]
  exact b.objects.nodup_keys

end Backend

end DataCrystal
