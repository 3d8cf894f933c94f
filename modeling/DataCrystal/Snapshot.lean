import Mathlib.Data.Finset.Sort
import DataCrystal.Held
import DataCrystal.Index.Extents

/-!
# Snapshots

A snapshot reads storage as it stood at one transaction. It decodes a record by
name through the shape the record was written in, restricted to the fields of the
live class, and a field the shape lacks takes the class's fill. What it hands out
cannot be changed: a list becomes a tuple, a reference a public token.

The views of an unprotected class are streamed off the shapes of its lineage. For
a protected class the snapshot builds the indexes of the class first, since a
principal may see part of the extent only. The snapshots here are bound to the
root principal, which sees all of it, but the index is built for root as well, and
what the build refuses nobody can list.

## Main definitions

* `Val.freeze`: What a snapshot makes of a decoded value.
* `Snapshot.decodeValues`: The values of a record.
* `Snapshot.all`: The views of a class.
* `Snapshot.viewValue`: The value a view has under a name.

## Theorems

* `build_extent`: The extent of an index build.
* `materialize_ok_iff`: When a record has a view.
* `all_ok_iff`, `all_spec`: The views of a class.
-/

namespace DataCrystal

open ClassIndexes

namespace Val

/-- What a snapshot makes of a decoded value: a list becomes a tuple. -/
def freeze : Val Token → Val Token
  | .none => .none
  | .scalar s => .scalar s
  | .leaf r => .leaf r
  | .seq .list xs => .seq .tuple (freezeItems xs)
  -- A tuple is passed on as it is, with what it holds.
  | .seq .tuple xs => .seq .tuple xs
  | .dict xs => .dict (freezeEntries xs)
where
  freezeItems : List (Val Token) → List (Val Token)
    | [] => []
    | x :: xs => freeze x :: freezeItems xs
  freezeEntries : List (Scalar × Val Token) → List (Scalar × Val Token)
    | [] => []
    | (k, x) :: xs => (k, freeze x) :: freezeEntries xs

end Val

/-- What a snapshot shows of a record. -/
structure EntityView where
  oid : Nat
  typename : String
  values : Dict String (Val Token)

/-- The exceptions of a snapshot. -/
inductive SnapshotErr
  | unknownTypeId (cid : Nat)
  /-- The record and the row of its shape differ in length. -/
  | damaged (typename : String)
  /-- A live field that the shape lacks has no default. -/
  | noDefault (typename field : String)
  /-- The indexes of the class cannot be built. -/
  | index (e : Err)
  /-- An indexed OID without a record. -/
  | noRecord (oid : Nat)

/-- A read view of storage, bound to the root principal. -/
structure Snapshot where
  view : Backend

namespace Snapshot

def tid (s : Snapshot) : Nat := s.view.marks.nextTid - 1

/-- The values of a payload by name. -/
def byName (names : List String) (payload : Payload) : Dict String (Val Token) :=
  Dict.ofList (names.zip payload)

/-- The value of a live field. -/
def fieldValue (ti : TypeInfo) (c : String) (values : Dict String (Val Token)) (name : String) :
    Except SnapshotErr (String × Val Token) :=
  match values.get? name with
  | some v => .ok (name, v.freeze)
  | none =>
    -- A field that came with a later shape.
    match ti.fill name with
    | some v => .ok (name, v.freeze)
    | none => .error (.noDefault c name)

/-- The class of a record and its values: of the live fields, or, without a live
    class, of those it has. -/
def decodeValues (types : Types) (s : Snapshot) (cid : Nat) (payload : Payload) :
    Except SnapshotErr (String × Dict String (Val Token)) :=
  match s.view.types.find? fun row => row.1 = cid with
  | none => .error (.unknownTypeId cid)
  | some row =>
    -- A record and its dictionary row that disagree are damage, not evolution.
    if payload.length ≠ row.2.2.length then .error (.damaged row.2.1)
    else
      match types.known row.2.1 with
      -- Without a live class the fields are those of the record.
      | none => .ok (row.2.1, (byName row.2.2 payload).mapVal fun _ v => v.freeze)
      | some ti => do
        let values ← ti.fieldNames.mapM (fieldValue ti row.2.1 (byName row.2.2 payload))
        .ok (row.2.1, Dict.ofList values)

/-- The view of a record. -/
def materialize (types : Types) (s : Snapshot) (rec : StoredRecord) :
    Except SnapshotErr EntityView := do
  let decoded ← s.decodeValues types rec.cid rec.payload
  .ok ⟨rec.oid, decoded.1, decoded.2⟩

/-- The view of an indexed OID. -/
def viewFor (types : Types) (s : Snapshot) (oid : Nat) : Except SnapshotErr EntityView :=
  match s.view.objects.get? oid with
  | none => .error (.noRecord oid)
  | some rec => s.materialize types rec

/-- The records of a class, shape by shape. -/
def recordsOf (s : Snapshot) (c : String) : List StoredRecord :=
  (s.view.lineageOf c).flatMap fun shape => s.view.scanType shape.1

def allStreamed (types : Types) (s : Snapshot) (c : String) : Except SnapshotErr (List EntityView) :=
  (s.recordsOf c).mapM (s.materialize types)

def allProtected (types : Types) (s : Snapshot) (c : String) (ti : TypeInfo) :
    Except SnapshotErr (List EntityView) := do
  let ci ← (buildClassIndexes ti (s.view.lineageOf c) s.view.scanType).mapError .index
  (ci.extent.sort (· ≤ ·)).mapM (s.viewFor types)

/-- Every committed entity of a class. -/
def all (types : Types) (s : Snapshot) (c : String) : Except SnapshotErr (List EntityView) :=
  match types.known c with
  | none => s.allStreamed types c
  | some ti => if ti.isProtected then s.allProtected types c ti else s.allStreamed types c

end Snapshot

namespace Backend

variable {b : Backend} {c : String} {names : List String} {rec : StoredRecord}

/-- The row of a filed record is the one that is found. -/
theorem Filing.find?_row (h : b.Filing) (hrec : b.FiledAs rec c names) :
    (b.types.find? fun row => row.1 = rec.cid) = some (rec.cid, c, names) :=
  Store.find?_row hrec.1 fun _ hrow _ hrow' => List.inj_on_of_nodup_map h.rows hrow hrow'

theorem Filing.fieldsOf (h : b.Filing) (hrec : b.FiledAs rec c names) :
    b.fieldsOf rec.cid = names := by
  rw [Backend.fieldsOf, h.find?_row hrec]
  rfl

theorem Filing.typenameOf (h : b.Filing) (hrec : b.FiledAs rec c names) :
    b.typenameOf rec.cid = some c := by
  rw [Backend.typenameOf, h.find?_row hrec]
  rfl

/-- A record of a class is filed under the fields of its shape. -/
theorem Filing.filedAs (h : b.Filing) (hrec : b.RecordOf c rec) :
    b.FiledAs rec c (b.fieldsOf rec.cid) := by
  rcases h.row rec.oid rec hrec.1 with ⟨c', names, hfiled⟩
  have hcls := hrec.2
  rw [h.typenameOf hfiled, Option.some.injEq] at hcls
  rw [h.fieldsOf hfiled, ← hcls]
  exact hfiled

end Backend

namespace Snapshot

variable {types : Types} {s : Snapshot} {c : String} {names : List String} {payload : Payload}
  {rec : StoredRecord} {ti : TypeInfo} {f : String}

/-- A payload has a value under the names of its shape. -/
theorem byName_eq_none (hlen : names.length = payload.length) :
    (byName names payload).get? f = none ↔ f ∉ names := by
  rw [← Dict.not_mem_keys_iff, byName, Dict.mem_keys_ofList, List.map_fst_zip hlen.le]

/-- The value a view has under a name. -/
def viewValue (types : Types) (c : String) (names : List String) (payload : Payload) (f : String) :
    Option (Val Token) :=
  match types.known c with
  | none => ((byName names payload).get? f).map Val.freeze
  | some ti =>
    -- A field the live class has dropped is not in the view.
    if f ∈ ti.fieldNames then (((byName names payload).get? f).or (ti.fill f)).map Val.freeze
    else none

theorem fieldValue_ok_iff {values : Dict String (Val Token)} {e : String × Val Token} :
    fieldValue ti c values f = .ok e ↔
      ∃ v, (values.get? f).or (ti.fill f) = some v ∧ e = (f, v.freeze) := by
  unfold fieldValue
  cases hget : values.get? f with
  | some v => simp [eq_comm]
  | none =>
      cases hfill : ti.fill (ρ := Token) f with
      | some v => simp [eq_comm]
      | none => simp

/-- The live fields of a record are read if each of them has a value. -/
theorem fieldValues_ok_iff {values : Dict String (Val Token)} :
    (∃ es, ti.fieldNames.mapM (fieldValue ti c values) = .ok es) ↔
      ∀ f ∈ ti.fieldNames, values.get? f = none → (ti.fill (ρ := Token) f).isSome := by
  constructor
  · rintro ⟨es, hes⟩ f hf hnone
    rcases except_mapM_mem hes f hf with ⟨e, -, hone⟩
    rcases fieldValue_ok_iff.mp hone with ⟨v, hv, -⟩
    rw [hnone, Option.none_or] at hv
    rw [hv]
    rfl
  · intro h
    refine ⟨_, except_mapM_ok (g := fun f =>
      (f, (((values.get? f).or (ti.fill f)).getD .none).freeze)) _ fun f hf => ?_⟩
    refine fieldValue_ok_iff.mpr ?_
    cases hget : values.get? f with
    | some v => exact ⟨v, rfl, rfl⟩
    | none =>
        rcases Option.isSome_iff_exists.mp (h f hf hget) with ⟨v, hv⟩
        rw [Option.none_or, hv]
        exact ⟨v, rfl, rfl⟩

/-- What was read of the live fields. -/
theorem get?_fieldValues {values : Dict String (Val Token)} {es : List (String × Val Token)}
    (h : ti.fieldNames.mapM (fieldValue ti c values) = .ok es) :
    (Dict.ofList es).get? f =
      if f ∈ ti.fieldNames then ((values.get? f).or (ti.fill f)).map Val.freeze else none := by
  have hfst : es.map Prod.fst = ti.fieldNames := by
    have hmap : es.map Prod.fst = ti.fieldNames.map id := except_mapM_map (fun f e hone => by
      rcases fieldValue_ok_iff.mp hone with ⟨v, -, rfl⟩
      rfl) h
    rw [hmap, List.map_id]
  by_cases hf : f ∈ ti.fieldNames
  · rw [if_pos hf]
    rcases except_mapM_mem h f hf with ⟨e, he, hone⟩
    rcases fieldValue_ok_iff.mp hone with ⟨v, hv, rfl⟩
    rw [hv]
    exact (Dict.get?_ofList_of_nodup es (hfst ▸ ti.fieldNames_nodup) f v.freeze).mpr he
  · rw [if_neg hf, ← Dict.not_mem_keys_iff, Dict.mem_keys_ofList, hfst]
    exact hf

section Filed

variable (h : s.view.Filing) (hrec : s.view.FiledAs rec c names)

include h hrec

/-- A record has a view if every live field its shape lacks has a fill. -/
theorem materialize_ok_iff : (∃ v, s.materialize types rec = .ok v) ↔
    ∀ ti, types.known c = some ti →
      ∀ f ∈ ti.fieldNames, f ∉ names → (ti.fill (ρ := Token) f).isSome := by
  have hrow := h.find?_row hrec
  have hlen : ¬rec.payload.length ≠ names.length := not_not_intro hrec.2.symm
  unfold materialize decodeValues
  simp only [hrow, if_neg hlen]
  cases hti : types.known c with
  | none =>
      refine iff_of_true ⟨_, rfl⟩ fun ti hti => ?_
      cases hti
  | some ti =>
      have hvalues : (∃ es, ti.fieldNames.mapM (fieldValue ti c (byName names rec.payload)) =
          .ok es) ↔ _ := fieldValues_ok_iff
      simp only [byName_eq_none hrec.2] at hvalues
      simp only [Option.some.injEq, forall_eq', ← hvalues]
      constructor
      · rintro ⟨v, hv⟩
        rcases except_bind_ok_iff.mp hv with ⟨decoded, hdecoded, -⟩
        rcases except_bind_ok_iff.mp hdecoded with ⟨es, hes, -⟩
        exact ⟨es, hes⟩
      · rintro ⟨es, hes⟩
        rw [hes]
        exact ⟨_, rfl⟩

/-- What the view of a record shows. -/
theorem materialize_spec {v : EntityView} (hv : s.materialize types rec = .ok v) :
    v.oid = rec.oid ∧ v.typename = c ∧
      ∀ f, v.values.get? f = viewValue types c names rec.payload f := by
  have hrow := h.find?_row hrec
  have hlen : ¬rec.payload.length ≠ names.length := not_not_intro hrec.2.symm
  unfold materialize decodeValues at hv
  simp only [hrow, if_neg hlen] at hv
  unfold viewValue
  cases hti : types.known c with
  | none =>
      rw [hti] at hv
      cases hv
      exact ⟨rfl, rfl, fun f => Dict.get?_mapVal _ _ f⟩
  | some ti =>
      rw [hti] at hv
      rcases except_bind_ok_iff.mp hv with ⟨decoded, hdecoded, hv⟩
      rcases except_bind_ok_iff.mp hdecoded with ⟨es, hes, hdecoded⟩
      cases hdecoded
      cases hv
      exact ⟨rfl, rfl, fun f => get?_fieldValues hes⟩

end Filed

/-- The records a snapshot scans for a class are those of the class. -/
theorem mem_recordsOf (h : s.view.Filing) : rec ∈ s.recordsOf c ↔ s.view.RecordOf c rec := by
  rw [recordsOf, List.mem_flatMap]
  constructor
  · rintro ⟨shape, hshape, hscan⟩
    rcases List.mem_map.mp hshape with ⟨row, hrow, rfl⟩
    rw [List.mem_filter, decide_eq_true_eq] at hrow
    rcases (Backend.mem_scanType h.filed _ _).mp hscan with ⟨hget, hcid⟩
    refine ⟨hget, ?_⟩
    rcases h.row _ _ hget with ⟨c', names, hfiled⟩
    have hsame := List.inj_on_of_nodup_map h.rows hrow.1 hfiled.1 hcid.symm
    rw [h.typenameOf hfiled, ← hrow.2, hsame]
  · intro hrec
    refine ⟨(rec.cid, s.view.fieldsOf rec.cid), ?_,
      (Backend.mem_scanType h.filed _ _).mpr ⟨hrec.1, rfl⟩⟩
    refine List.mem_map.mpr ⟨(rec.cid, c, s.view.fieldsOf rec.cid), ?_, rfl⟩
    exact List.mem_filter.mpr ⟨(h.filedAs hrec).1, decide_eq_true rfl⟩

/-- No record is scanned twice. -/
theorem recordsOf_nodup (h : s.view.Filing) (c : String) :
    ((s.recordsOf c).map StoredRecord.oid).Nodup := by
  have hcids : ((s.view.lineageOf c).map Prod.fst).Nodup := by
    rw [Backend.lineageOf, List.map_map]
    exact h.rows.sublist (List.filter_sublist.map _)
  rw [recordsOf, List.map_flatMap]
  refine List.nodup_flatMap.mpr ⟨fun shape _ => Backend.scanType_nodup h.filed _, ?_⟩
  refine (List.pairwise_map.mp hcids).imp fun {shape shape'} hne => ?_
  refine List.disjoint_left.mpr fun oid hoid hoid' => hne ?_
  rcases List.mem_map.mp hoid with ⟨rec, hrec, rfl⟩
  rcases List.mem_map.mp hoid' with ⟨rec', hrec', hsame⟩
  have hget := (Backend.mem_scanType h.filed _ _).mp hrec
  have hget' := (Backend.mem_scanType h.filed _ _).mp hrec'
  rw [hsame, hget.1, Option.some.injEq] at hget'
  rw [← hget.2, ← hget'.2, hget'.1]

/-- The OIDs in the extent of a class are those of its records. -/
theorem mem_extent (h : s.view.Filing) {ci : ClassIndexes}
    (hci : buildClassIndexes ti (s.view.lineageOf c) s.view.scanType = .ok ci) (k : Nat) :
    k ∈ ci.extent ↔ ∃ rec, s.view.RecordOf c rec ∧ rec.oid = k := by
  rw [build_extent hci]
  constructor
  · rintro ⟨shape, hshape, rec, hrec, rfl⟩
    exact ⟨rec, (mem_recordsOf h).mp (List.mem_flatMap.mpr ⟨shape, hshape, hrec⟩), rfl⟩
  · rintro ⟨rec, hrec, rfl⟩
    rcases List.mem_flatMap.mp ((mem_recordsOf h).mpr hrec) with ⟨shape, hshape, hscan⟩
    exact ⟨shape, hshape, rec, hscan, rfl⟩

theorem oid_of_materialize {v : EntityView} (hv : s.materialize types rec = .ok v) :
    v.oid = rec.oid := by
  rcases except_bind_ok_iff.mp hv with ⟨decoded, -, hv⟩
  cases hv
  rfl

theorem oid_of_viewFor (h : s.view.Filing) {oid : Nat} {v : EntityView}
    (hv : s.viewFor types oid = .ok v) : v.oid = oid := by
  unfold viewFor at hv
  cases hget : s.view.objects.get? oid with
  | none =>
      rw [hget] at hv
      cases hv
  | some rec =>
      rw [hget] at hv
      exact (oid_of_materialize hv).trans (h.filed _ _ hget)

theorem viewFor_of_record {oid : Nat} (hget : s.view.objects.get? oid = some rec) :
    s.viewFor types oid = s.materialize types rec := by
  rw [viewFor, hget]

/-- The index build that listing a class takes returns. Only a protected class takes
    one, for its listing goes through the readable rows. -/
def Builds (types : Types) (s : Snapshot) (c : String) : Prop :=
  ∀ ti, types.known c = some ti → ti.isProtected = true →
    ∃ ci, buildClassIndexes ti (s.view.lineageOf c) s.view.scanType = .ok ci

/-- Every record of the class has a view: its shape lacks no live field without a
    default, and has a name for each of its values. -/
def Decodes (types : Types) (s : Snapshot) (c : String) : Prop :=
  ∀ rec, s.view.RecordOf c rec → ∃ v, s.materialize types rec = .ok v

theorem allStreamed_ok_iff (h : s.view.Filing) :
    (∃ views, s.allStreamed types c = .ok views) ↔ s.Decodes types c := by
  rw [allStreamed, except_mapM_returns_iff]
  exact forall_congr' fun rec => imp_congr (mem_recordsOf h) Iff.rfl

theorem allProtected_ok_iff (h : s.view.Filing) :
    (∃ views, s.allProtected types c ti = .ok views) ↔
      (∃ ci, buildClassIndexes ti (s.view.lineageOf c) s.view.scanType = .ok ci) ∧
        s.Decodes types c := by
  unfold allProtected
  cases hci : buildClassIndexes ti (s.view.lineageOf c) s.view.scanType with
  | error e => exact iff_of_false (fun hv => nomatch hv) fun hv => nomatch hv.1
  | ok ci =>
      change (∃ views, (ci.extent.sort (· ≤ ·)).mapM (s.viewFor types) = .ok views) ↔ _
      rw [except_mapM_returns_iff]
      constructor
      · refine fun hall => ⟨⟨ci, rfl⟩, fun rec hrec => ?_⟩
        rw [← viewFor_of_record hrec.1]
        exact hall rec.oid ((Finset.mem_sort _).mpr ((mem_extent h hci _).mpr ⟨rec, hrec, rfl⟩))
      · rintro ⟨-, hall⟩ oid hoid
        rcases (mem_extent h hci _).mp ((Finset.mem_sort _).mp hoid) with ⟨rec, hrec, rfl⟩
        rw [viewFor_of_record hrec.1]
        exact hall rec hrec

/-- A class is listed if the index build it takes returns and every record of it
    has a view. -/
theorem all_ok_iff (h : s.view.Filing) :
    (∃ views, s.all types c = .ok views) ↔ s.Builds types c ∧ s.Decodes types c := by
  unfold all Builds
  cases hti : types.known c with
  | none =>
      rw [allStreamed_ok_iff h]
      simp
  | some ti =>
      by_cases hp : ti.isProtected = true
      · simp only [hp, if_true, allProtected_ok_iff h, Option.some.injEq, forall_eq', forall_const]
      · simp only [hp, if_false, allStreamed_ok_iff h, Option.some.injEq, forall_eq',
          false_imp_iff, true_and, Bool.false_eq_true]

/-- The views of some OIDs or records, each with what it is a view of. -/
theorem views_spec {α : Type} (oid : α → Nat) {view : α → Except SnapshotErr EntityView}
    {xs : List α} {views : List EntityView} (hnd : (xs.map oid).Nodup)
    (hoid : ∀ x v, view x = .ok v → v.oid = oid x)
    (hxs : ∀ v, (∃ x ∈ xs, view x = .ok v) ↔
      ∃ rec, s.view.RecordOf c rec ∧ s.materialize types rec = .ok v)
    (hviews : xs.mapM view = .ok views) : (views.map EntityView.oid).Nodup ∧
      ∀ v, v ∈ views ↔ ∃ rec, s.view.RecordOf c rec ∧ s.materialize types rec = .ok v := by
  constructor
  · rw [except_mapM_map hoid hviews]
    exact hnd
  · intro v
    rw [except_mapM_mem_iff hviews, hxs]

/-- The views of a class: one of each of its records. -/
theorem all_spec (h : s.view.Filing) {views : List EntityView}
    (hall : s.all types c = .ok views) : (views.map EntityView.oid).Nodup ∧
      ∀ v, v ∈ views ↔ ∃ rec, s.view.RecordOf c rec ∧ s.materialize types rec = .ok v := by
  have hstreamed : s.allStreamed types c = .ok views → (views.map EntityView.oid).Nodup ∧
      ∀ v, v ∈ views ↔ ∃ rec, s.view.RecordOf c rec ∧ s.materialize types rec = .ok v :=
    views_spec StoredRecord.oid (recordsOf_nodup h c) (fun rec v hv => oid_of_materialize hv)
      fun v => exists_congr fun rec => and_congr_left fun _ => mem_recordsOf h
  unfold all at hall
  cases hti : types.known c with
  | none =>
      rw [hti] at hall
      exact hstreamed hall
  | some ti =>
      rw [hti] at hall
      by_cases hp : ti.isProtected = true
      · simp only [if_pos hp] at hall
        rcases except_bind_ok_iff.mp hall with ⟨ci, hci, hviews⟩
        rcases except_mapError_ok_iff.mp hci with hci
        refine views_spec id ?_ (fun k v hv => oid_of_viewFor h hv) (fun v => ?_) hviews
        · rw [List.map_id]
          exact Finset.sort_nodup _ _
        · constructor
          · rintro ⟨k, hk, hv⟩
            rcases (mem_extent h hci k).mp ((Finset.mem_sort _).mp hk) with ⟨rec, hrec, rfl⟩
            exact ⟨rec, hrec, viewFor_of_record hrec.1 ▸ hv⟩
          · rintro ⟨rec, hrec, hv⟩
            exact ⟨rec.oid, (Finset.mem_sort _).mpr ((mem_extent h hci _).mpr ⟨rec, hrec, rfl⟩),
              (viewFor_of_record hrec.1).trans hv⟩
      · simp only [if_neg hp] at hall
        exact hstreamed hall

end Snapshot

end DataCrystal
