import DataCrystal.Held
import DataCrystal.Windows

/-!
# Reads of the Committed Rows

`pluck` and `count` go through the committed records and never see a live
entity. A record is decoded through the shape it was written in, all its fields
at once, so a live field without a value in an old shape is refused whether or
not the read asks for it.

A row of a protected class carries labels in any store a run comes to: a commit
writes them with the record, and a record from before the class was protected
takes the legacy labels.

## Main definitions

* `Store.rawRow`: The decoded row of an OID.
* `Store.pluck`, `Store.count`: The reads.
* `Backend.Labelled`: The label columns of the stored records hold labels.
* `Store.Decodes`: Every record of a class can be read by the live class.
* `Store.Reliable`: What the reads rely on of a store.

## Theorems

* `selectRows_spec`: The rows that are projected, given an index.
* `reads_listing`: The reads of a store.
* `run_labelled`, `run_named`: The label columns of a run hold labels, and its
  shapes have no name twice.
* `Watched.pluck_windows`: The reads of any store a run comes to.
-/

namespace DataCrystal

open ClassIndexes IndexManager

/-- An order that is asked for, checked. -/
def parseOrder (order : Option OrderBy) (ti : TypeInfo) :
    Except QueryErr (Option (String × Bool)) :=
  match order with
  | none => .ok none
  | some o => (parseOrderBy o ti).map some

/-- A residual on a row; without one every row passes. -/
def holdsOn {ρ : Type} [DecidableEq ρ] (residual : Option (Cond ρ)) (row : String → Val ρ) :
    Except ValueErr Bool :=
  match residual with
  | none => .ok true
  | some c => c.evaluate row

theorem holdsOn_ok {ρ : Type} [DecidableEq ρ] {residual : Option (Cond ρ)} {row : String → Val ρ}
    (h : ∀ c, residual = some c → ∃ b, c.evaluate row = .ok b) :
    holdsOn residual row = .ok (passes residual row) := by
  cases residual with
  | none => rfl
  | some c =>
      rcases h c rfl with ⟨b, hb⟩
      rw [holdsOn, passes, hb]
      cases b <;> simp

namespace Store

/-- The row a hydration plan reads, by name. -/
def planRow (plan : List (FieldSpec × Val Token)) (f : String) : Val Token :=
  ((plan.find? fun e => e.1.name = f).map Prod.snd).getD .none

/-- The decoded row of an OID. -/
def rawRow (s : Store) (ti : TypeInfo) (oid : Nat) :
    Except (ReadErr Err) (Nat × (String → Val Token)) :=
  match s.backend.objects.get? oid with
  -- An index that names a record storage does not have.
  | none => .error (.noRecord oid)
  | some rec =>
    ((hydrationPlan ti (s.persistedFields rec.cid) rec.payload).mapError .source).map fun plan =>
      (oid, planRow plan)

/-- The decoded rows of some OIDs that satisfy the residual. -/
def matchingRows (s : Store) (ti : TypeInfo) (residual : Option (Cond Token)) :
    List Nat → Except (ReadErr Err) (List (Nat × (String → Val Token)))
  | [] => .ok []
  | oid :: oids => do
    let row ← s.rawRow ti oid
    let keep ← comparing (holdsOn residual row.2)
    let rest ← s.matchingRows ti residual oids
    .ok (if keep then row :: rest else rest)

/-- The rows `pluck` projects. -/
def selectRows (s : Store) (ti : TypeInfo) (ci : ClassIndexes) (p : Principal)
    (cond : Option (Cond Token)) (order : Option OrderBy) (w : Window) :
    Except (ReadErr Err) (List (Nat × (String → Val Token))) := do
  let selected ← comparing (candidates ti ci cond p)
  -- The fence and the plan come before the order is looked at.
  let order ← (parseOrder order ti).mapError .query
  readWindow ci (s.matchingRows ti) Prod.snd selected.1 selected.2 order w

/-- Run a program of the store inside a read. -/
def reading {α : Type} (prog : M α) : EStateM (ReadErr Err) Store α := fun s =>
  match prog s with
  | .ok a t => .ok a t
  | .error e t => .error (.source e) t

/-- Every field asked for is one of the class. -/
def requirePersistedFields (ti : TypeInfo) (fields : List String) : Except QueryErr Unit :=
  match fields.find? fun f => !ti.fieldNames.contains f with
  | some f => .error (.unknownField f)
  | none => .ok ()

/-- Project fields of the selected rows, without constructing an entity. -/
def pluck (types : Types) (p : Principal) (c : String) (cond : Option (Cond Token))
    (fields : List String) (limit : Option ℤ) (offset : ℤ) (order : Option OrderBy) :
    EStateM (ReadErr Err) Store (List (List (Val Token))) := do
  let w ← ofExcept ((validateWindow limit offset).mapError .query)
  raiseIf fields.isEmpty (.query .noFields)
  ofExcept ((requirePersistedFields (types.info c) fields).mapError .query)
  let s ← get
  -- Nothing of the class was ever stored.
  if (s.cidByTypename c).isNone then pure []
  else
    let ci ← reading (ensureIndex types c)
    -- The state after the index, which may have been built just now.
    let s ← get
    let rows ← ofExcept (s.selectRows (types.info c) ci p cond order w)
    pure (rows.map fun row => fields.map row.2)

/-- Count the selected rows, without constructing an entity. -/
def count (types : Types) (p : Principal) (c : String) (cond : Option (Cond Token)) :
    EStateM (ReadErr Err) Store Nat := do
  let s ← get
  -- Nothing of the class was ever stored.
  if (s.cidByTypename c).isNone then pure 0
  else
    let ci ← reading (ensureIndex types c)
    let s ← get
    ofExcept (countSelected (types.info c) ci p cond (s.matchingRows (types.info c)))

/-- Every record of a class can be read by the live class: a field its shape
    lacks has a fill. -/
def Decodes (types : Types) (s : Store) (c : String) : Prop :=
  ∀ rec, s.backend.RecordOf c rec → ∀ f ∈ (types.info c).fieldNames,
    f ∉ s.backend.fieldsOf rec.cid → ((types.info c).fill (ρ := Token) f).isSome

/-- The value of every field of the row of an OID. -/
def rawView (s : Store) (ti : TypeInfo) (oid : Nat) : String → Val Token :=
  match s.rawRow ti oid with
  | .ok row => row.2
  | .error _ => fun _ => .none

/-- The labels a row carries in its label columns. -/
def rowLabels (row : String → Val Token) : Labels :=
  ⟨(row "_dc_owner").toInt?.getD 0, (row "_dc_groups").toInts?.getD [],
    (row "_dc_read_floor").toInt?.getD 0, (row "_dc_write_floor").toInt?.getD 0⟩

/-- The labels of the row of an OID. -/
def labelsOf (s : Store) (ti : TypeInfo) (oid : Nat) : Labels := rowLabels (s.rawView ti oid)

section Rows

variable {types : Types} {kind : Nat → String} {s t : Store} {ti : TypeInfo} {c : String}
  {fam : String → String → Family} {P : String → Prop} {ci : ClassIndexes}

/-- A plan reads the row of a record. -/
theorem planRow_spec {persisted : List String} (payload : List (Val Token))
    (h : ∀ f ∈ ti.fieldNames, f ∉ persisted → (ti.fill (ρ := Token) f).isSome) :
    ∃ plan, hydrationPlan ti persisted payload = .ok plan ∧
      ∀ f ∈ ti.fieldNames, planRow plan f = recordRow ti persisted payload f := by
  have hvalue : ∀ spec ∈ ti.specs, (hydrationValue ti persisted payload spec.name).map
      (fun v => (spec, v)) = .ok (spec, recordRow ti persisted payload spec.name) := by
    intro spec hspec
    unfold hydrationValue recordRow
    by_cases hp : persisted.contains spec.name = true
    · simp only [hp, if_true, Except.map]
    · have hfill := h spec.name (List.mem_map_of_mem hspec) (by simpa using hp)
      rcases Option.isSome_iff_exists.mp hfill with ⟨v, hv⟩
      simp only [hp, Bool.false_eq_true, if_false, hv, Except.map, Option.getD_some]
  refine ⟨_, except_mapM_ok ti.specs hvalue, fun f hf => ?_⟩
  rcases List.mem_map.mp hf with ⟨spec, hspec, rfl⟩
  -- The first spec of the name is the spec.
  have hfind : ∀ specs : List FieldSpec, (∀ sp ∈ specs, sp ∈ ti.specs) → spec ∈ specs →
      (specs.map fun sp => (sp, recordRow ti persisted payload sp.name)).find?
        (fun e => e.1.name = spec.name) = some (spec, recordRow ti persisted payload spec.name) := by
    intro specs
    induction specs with
    | nil => exact fun _ hmem => absurd hmem List.not_mem_nil
    | cons sp specs ih =>
        intro hsub hmem
        by_cases hname : sp.name = spec.name
        · have hsame := ti.spec_unique (hsub sp List.mem_cons_self) hspec hname
          simp [hsame]
        · have hrest : spec ∈ specs :=
            (List.mem_cons.mp hmem).resolve_left fun hc => hname (by rw [hc])
          simp [hname, ih (fun sp' hsp' => hsub sp' (List.mem_cons_of_mem sp hsp')) hrest]
  rw [planRow, hfind ti.specs (fun _ h => h) hspec]
  rfl

/-- The row of a record is decoded through the shape of the record. -/
theorem rawRow_ok (hs : StorageOk kind s) (hdec : s.Decodes types c) {rec : StoredRecord}
    (hrec : s.backend.RecordOf c rec) :
    s.rawRow (types.info c) rec.oid = .ok (rec.oid, s.rawView (types.info c) rec.oid) ∧
      ∀ f ∈ (types.info c).fieldNames,
        s.rawView (types.info c) rec.oid f = s.backend.rowOf (types.info c) rec f := by
  have hshape := (hs.shape hrec.1).1
  rcases planRow_spec rec.payload (hdec rec hrec) with ⟨plan, hplan, hrow⟩
  have hraw : s.rawRow (types.info c) rec.oid = .ok (rec.oid, planRow plan) := by
    rw [rawRow, hrec.1]
    simp only [hshape, hplan, Except.mapError, Except.map]
  rw [rawView, hraw]
  exact ⟨rfl, hrow⟩

theorem record_of_row {oid : Nat} (hs : StorageOk kind s)
    (h : (s.backend.classRows ti c oid).isSome) : ∃ rec, s.backend.RecordOf c rec ∧ rec.oid = oid ∧
      s.backend.classRows ti c oid = some (rowKeys ti (s.backend.rowOf ti rec)) := by
  rcases Option.isSome_iff_exists.mp h with ⟨row, hrow⟩
  rcases classRows_some hrow with ⟨rec, hget, hcls, rfl⟩
  have hoid := (hs.records oid rec hget).1
  exact ⟨rec, ⟨by rw [hoid]; exact hget, hcls⟩, hoid, hrow⟩

/-- Decoding the rows of a class and keeping those that pass. -/
theorem matchingRows_selects (hs : StorageOk kind s) (hdec : s.Decodes types c) :
    Selects (s.backend.classRows (types.info c) c) (s.rawView (types.info c))
      (fun oid => (oid, s.rawView (types.info c) oid)) (s.matchingRows (types.info c)) := by
  intro residual oids
  induction oids with
  | nil => exact fun _ _ => rfl
  | cons oid oids ih =>
      intro hrows hres
      have hrow := hrows oid List.mem_cons_self
      rcases record_of_row hs hrow with ⟨rec, hrec, rfl, -⟩
      have hkeep := holdsOn_ok fun c hc => hres c hc rec.oid hrow
      rw [matchingRows, (rawRow_ok hs hdec hrec).1,
        ih (fun o ho => hrows o (List.mem_cons_of_mem _ ho)) hres]
      simp only [Bind.bind, Except.bind, hkeep, comparing, Except.mapError]
      by_cases hp : passes residual (s.rawView (types.info c) rec.oid) = true
      · simp [hp]
      · simp [hp]

/-- The index of a class can be made, and it stands for the rows of the class. -/
theorem ensureIndex_stands (hfam : ∀ c f, fam c f ≠ .nan) (hs : StorageOk kind s)
    (ht : s.Tidy (Kin.ofFamilies fam) types) (hin : s.InStep) (hidx : s.Indexed P fam types) (hP : P c) :
    ∃ ci m, ensureIndex types c s = .ok ci { s with index := m } ∧
      StandsFor fam types s.backend c ci := by
  rcases ht.ensureIndex_answers hs c with ⟨ci, t, hrun⟩
  have hbuilt := ensureIndex_ok hrun
  rw [ensureIndex, bind_run_ok (get_run s)] at hrun
  rcases zoom_ok_iff.mp hrun with ⟨m, hm, rfl⟩
  refine ⟨ci, m, ?_, ?_⟩
  · rw [ensureIndex, bind_run_ok (get_run s)]
    exact hrun
  · have hmoves : Relation.ReflTransGen (Ensures types s.backend s.lineageFor) s.index m := by
      have hfinal : MovesAt (Ensures types s.backend s.lineageFor)
        (IndexManager.ensure types s.backend (s.lineageFor c) c) s.index := moves_ensure c s.index
      rw [MovesAt, hm] at hfinal
      exact hfinal
    have hfaithful : m.Faithful P fam types s.backend :=
      reflTransGen_invariant (I := fun m => m.Faithful P fam types s.backend)
        (fun _ _ hstep h => ensures_faithful hstep h (hidx.rebuildable hfam ht hin) hs) hmoves
        hidx.index
    exact hfaithful.built c ci hP hbuilt

end Rows

end Store

/-- The shape of a record has no name twice. -/
def Backend.Named (b : Backend) : Prop :=
  ∀ oid rec, b.objects.get? oid = some rec → (b.fieldsOf rec.cid).Nodup

/-- The label columns of the stored records hold the values of labels. They are
    written by the store alone, so no other value gets there. -/
def Backend.Labelled (b : Backend) : Prop := ∀ oid rec, b.objects.get? oid = some rec →
  ∃ l : Labels, ∀ f ∈ b.fieldsOf rec.cid, ∀ v, l.column f = some v →
    persistedValue (b.fieldsOf rec.cid) rec.payload f = v

namespace Store

section Labels

variable {types : Types} {p : Principal} {kind : Nat → String} {s s₁ t : Store} {ti : TypeInfo}
  {c : String} {fam : String → String → Family} {P : String → Prop} {ci : ClassIndexes}
  {m : IndexManager} {out : EncodedBatch}

/-- The label columns of a row of a protected class hold the labels of the row:
    those stored with it, or the legacy ones. -/
theorem rowLabels_column (hlab : s.backend.Labelled) (hprot : ti.isProtected = true)
    {rec : StoredRecord} (hrec : s.backend.objects.get? rec.oid = some rec) (f : String)
    (v : Val Token) (hv : (rowLabels (s.backend.rowOf ti rec)).column f = some v) :
    s.backend.rowOf ti rec f = v := by
  rcases hlab rec.oid rec hrec with ⟨l, hl⟩
  have hcol : ∀ f ∈ permFields, ∀ v w, l.column f = some v → legacyFill.column f = some w →
      s.backend.rowOf ti rec f = v ∨ s.backend.rowOf ti rec f = w := by
    intro f hf v w hv hw
    rw [Backend.rowOf, recordRow]
    by_cases hp : f ∈ s.backend.fieldsOf rec.cid
    · rw [if_pos (by simpa using hp)]
      exact Or.inl (hl f hp v hv)
    · rw [if_neg (by simpa using hp), TypeInfo.fill, if_pos (by simpa [hprot] using hf), hw]
      exact Or.inr rfl
  unfold Labels.column at hv
  split at hv
  · rcases hcol "_dc_owner" (by decide) _ _ rfl rfl with h | h <;>
      rw [← Option.some.inj hv] <;> simp [rowLabels, h]
  · rcases hcol "_dc_groups" (by decide) _ _ rfl rfl with h | h <;>
      rw [← Option.some.inj hv] <;> simp [rowLabels, h]
  · rcases hcol "_dc_read_floor" (by decide) _ _ rfl rfl with h | h <;>
      rw [← Option.some.inj hv] <;> simp [rowLabels, h]
  · rcases hcol "_dc_write_floor" (by decide) _ _ rfl rfl with h | h <;>
      rw [← Option.some.inj hv] <;> simp [rowLabels, h]
  · cases hv

/-- An index of the rows of a class is one a read can rely on. -/
theorem readies_of_stands (h : StandsFor fam types s.backend c ci) (hs : StorageOk kind s)
    (hrows : (s.typeRows.map Prod.fst).Nodup) (hconf : RowsConform fam types s.backend)
    (hlab : s.backend.Labelled)
    (hfloor : (types.info c).isProtected = true → fam c "_dc_read_floor" = .number)
    (hdec : s.Decodes types c) :
    Readies (fam c) (types.info c) (s.backend.classRows (types.info c) c) noneLost
      (s.rawView (types.info c)) (s.labelsOf (types.info c)) ci := by
  -- A row of the index is the keys of a record, and the raw view shows that record.
  have hview : ∀ oid row, s.backend.classRows (types.info c) c oid = some row →
      ∃ rec, s.backend.RecordOf c rec ∧ rec.oid = oid ∧
        row = rowKeys (types.info c) (s.backend.rowOf (types.info c) rec) ∧
        ∀ f ∈ (types.info c).fieldNames,
          s.rawView (types.info c) oid f = s.backend.rowOf (types.info c) rec f := by
    intro oid row hrow
    rcases record_of_row hs (by rw [hrow]; rfl) with ⟨rec, hrec, rfl, hkeys⟩
    rw [hkeys, Option.some.injEq] at hrow
    exact ⟨rec, hrec, rfl, hrow.symm, (rawRow_ok hs hdec hrec).2⟩
  refine ⟨h.represents, h.sound, h.done, ⟨fun oid row hrow f hf => ?_, fun oid row hrow f hf => ?_⟩,
    fun f k n hno => absurd hno id, fun hprot => ⟨hfloor hprot, ?_⟩⟩
  · rcases hview oid row hrow with ⟨rec, hrec, -, rfl, hvalues⟩
    rw [hvalues f (mem_fieldNames_of_maintained hf)]
    exact (hconf c rec hrec).keyed f hf
  · rcases hview oid row hrow with ⟨rec, hrec, -, rfl, -⟩
    exact (hconf c rec hrec).noNan f hf
  -- The labels in the columns are those of the records, which the storage keeps well formed.
  · rw [← rowsOf_scannedRows hs hrows]
    refine labelledRows_of_columns hprot fun e he f v hv => ?_
    rcases (mem_scannedRows hs e).mp he with ⟨rec, hrec, rfl⟩
    have hsame : s.labelsOf (types.info c) rec.oid =
        rowLabels (s.backend.rowOf (types.info c) rec) := by
      have hvalue := (rawRow_ok hs hdec hrec).2
      have hfield : ∀ f ∈ permFields, f ∈ (types.info c).fieldNames := by
        intro f hf
        rw [← TypeInfo.permSpecs_names] at hf
        rcases List.mem_map.mp hf with ⟨spec, hspec, rfl⟩
        exact List.mem_map_of_mem (mem_permSpec hprot hspec)
      rw [labelsOf, rowLabels, rowLabels, hvalue "_dc_owner" (hfield _ (by decide)),
        hvalue "_dc_groups" (hfield _ (by decide)), hvalue "_dc_read_floor" (hfield _ (by decide)),
        hvalue "_dc_write_floor" (hfield _ (by decide))]
    change (s.labelsOf (types.info c) rec.oid).column f = some v at hv
    rw [hsame] at hv
    exact rowLabels_column hlab hprot hrec.1 f v hv

/-- A label column holds an integer or a list of them, whatever references are. -/
theorem column_cases {ρ τ : Type} {l : Labels} {f : String} {v : Val ρ}
    (hv : l.column f = some v) : (∃ i, v = .int i ∧ l.column f = some (.int i : Val τ)) ∨
      ∃ gs, v = .ints gs ∧ l.column f = some (.ints gs : Val τ) := by
  unfold Labels.column at hv
  split at hv
  · exact Or.inl ⟨_, (Option.some.inj hv).symm, rfl⟩
  · exact Or.inr ⟨_, (Option.some.inj hv).symm, rfl⟩
  · exact Or.inl ⟨_, (Option.some.inj hv).symm, rfl⟩
  · exact Or.inl ⟨_, (Option.some.inj hv).symm, rfl⟩
  · cases hv

/-- A commit stores labels with the records of the protected classes. -/
theorem stored_labelled (h : Coherent kind t) (hb : BatchOk types t t.pending.entries t out)
    (hlab : t.backend.Labelled) : (t.backend.apply (t.buildBatch out)).Labelled := by
  intro oid rec hrec
  rcases stored_record h hb hrec with ⟨hold, -, -⟩ | ⟨o, -, henc, hnames, -⟩
  · have hrow := h.storage.row hold
    have hfields : (t.backend.apply (t.buildBatch out)).fieldsOf rec.cid =
        t.backend.fieldsOf rec.cid := by
      rw [Backend.fieldsOf, Backend.find?_types_apply _ hrow rfl]
      rfl
    rw [hfields]
    exact hlab oid rec hold
  · rw [hnames]
    refine ⟨(t.heap.get o).labels, fun f hf v hv => ?_⟩
    rcases List.mem_map.mp hf with ⟨spec, hspec, rfl⟩
    have hvalue := encodedAs_value henc hspec
    have hperm : spec ∈ permSpecs := by
      rw [TypeInfo.specs, List.mem_append] at hspec
      rcases hspec with hdata | hspec
      · -- A declared field is not called like a label column.
        exfalso
        apply (t.info types o).not_reserved spec hdata
        unfold Labels.column at hv
        split at hv <;> simp_all [permFields]
      · split at hspec
        · exact hspec
        · exact absurd hspec List.not_mem_nil
    have hblob : ∀ spec ∈ permSpecs, spec.blob = false := by decide
    rw [FieldEncodedAs, if_neg (by simp [hblob spec hperm]), Entity.field] at hvalue
    rcases column_cases hv with ⟨i, rfl, hlive⟩ | ⟨gs, rfl, hlive⟩
    · rw [hlive, Option.getD_some] at hvalue
      exact encode_int hvalue
    · rw [hlive, Option.getD_some] at hvalue
      exact encode_ints hvalue

/-- A commit writes its records under the fields of their classes. -/
theorem stored_named (h : Coherent kind t) (hb : BatchOk types t t.pending.entries t out)
    (hnamed : t.backend.Named) : (t.backend.apply (t.buildBatch out)).Named := by
  intro oid rec hrec
  rcases stored_record h hb hrec with ⟨hold, -, -⟩ | ⟨o, -, -, hnames, -⟩
  · have hfields : (t.backend.apply (t.buildBatch out)).fieldsOf rec.cid =
        t.backend.fieldsOf rec.cid := by
      rw [Backend.fieldsOf, Backend.find?_types_apply _ (h.storage.row hold) rfl]
      rfl
    rw [hfields]
    exact hnamed oid rec hold
  · rw [hnames]
    exact TypeInfo.fieldNames_nodup _

end Labels

/-- The rows of a class that a condition keeps and a principal may read. -/
def matching (types : Types) (s : Store) (p : Principal) (c : String)
    (cond : Option (Cond Token)) : Nat → Prop :=
  Matching (types.info c) (s.backend.classRows (types.info c) c) noneLost
    (s.rawView (types.info c)) (s.labelsOf (types.info c)) p cond

/-- What a read needs of the class and of what it is asked: the records can be
    read, the operands of the condition hash and compare, the values of the
    order compare, and so do the keys the index has had for its field. -/
structure Answerable (fam : String → Family) (types : Types) (s : Store) (p : Principal)
    (c : String) (cond : Option (Cond Token)) (order : Option (String × Bool)) (fm : Family) :
    Prop where
  floor : (types.info c).isProtected = true → fam "_dc_read_floor" = .number
  decodes : s.Decodes types c
  evaluable : ∀ d, cond = some d → Evaluable fam (types.info c)
    (s.backend.classRows (types.info c) c) (s.rawView (types.info c)) d
  orders : Orders order (s.rawView (types.info c)) (s.matching types p c cond) fm
  comparable : ∀ ci t, ensureIndex types c s = .ok ci t → ∀ o, order = some o →
    o.1 ∈ (types.info c).eqIndexFields → Comparable ci o.1 fm

section Spec

variable {types : Types} {kind : Nat → String} {s : Store} {c : String} {fam : String → Family}
  {lost : Lost} {ci : ClassIndexes} {p : Principal} {cond : Option (Cond Token)}

/-- An order that is accepted is by a field that is not a list. -/
theorem parseOrder_scalar {ti : TypeInfo} {order : Option OrderBy} {o : String × Bool}
    (h : parseOrder order ti = .ok (some o)) : o.1 ∉ ti.listFields := by
  cases order with
  | none => cases h
  | some order =>
      rw [parseOrder] at h
      cases ho : parseOrderBy order ti with
      | error e =>
          rw [ho] at h
          cases h
      | ok o' =>
          rw [ho] at h
          cases h
          unfold parseOrderBy at ho
          rcases except_bind_ok_iff.mp ho with ⟨ref, -, ho⟩
          rcases ref with ⟨_ | name, direction⟩
          · cases ho
          · dsimp only at ho
            split_ifs at ho with hknown hdir hlist
            cases ho
            simpa using hlist

/-- The rows `pluck` projects are the window of the listing. -/
theorem selectRows_spec (hs : StorageOk kind s) (hdec : s.Decodes types c)
    (h : Readies fam (types.info c) (s.backend.classRows (types.info c) c) lost
      (s.rawView (types.info c)) (s.labelsOf (types.info c)) ci)
    (heval : ∀ d, cond = some d → Evaluable fam (types.info c)
      (s.backend.classRows (types.info c) c) (s.rawView (types.info c)) d)
    {order : Option OrderBy} {parsed : Option (String × Bool)}
    (hparse : parseOrder order (types.info c) = .ok parsed) {fm : Family}
    (hord : Orders parsed (s.rawView (types.info c))
      (Matching (types.info c) (s.backend.classRows (types.info c) c) lost
        (s.rawView (types.info c)) (s.labelsOf (types.info c)) p cond) fm)
    (hcomp : ∀ o, parsed = some o → o.1 ∈ (types.info c).eqIndexFields →
      Comparable ci o.1 fm) (w : Window) :
    ∃ xs, Listing parsed (s.rawView (types.info c))
        (Matching (types.info c) (s.backend.classRows (types.info c) c) lost
          (s.rawView (types.info c)) (s.labelsOf (types.info c)) p cond) xs ∧
      s.selectRows (types.info c) ci p cond order w =
        .ok ((applyWindow w xs).map fun oid => (oid, s.rawView (types.info c) oid)) := by
  rcases readWindow_spec h heval p Prod.fst Prod.snd (matchingRows_selects hs hdec)
    (fun oid _ => ⟨rfl, rfl⟩) hord
    (fun o ho hf => ⟨parseOrder_scalar (ho ▸ hparse), hcomp o ho hf⟩) w with
    ⟨candidate, residual, xs, hcand, hlist, hread⟩
  refine ⟨xs, hlist, ?_⟩
  rw [selectRows, hcand, hparse]
  exact hread

/-- A class that was never seen has no rows. -/
theorem nil_of_unseen (hs : StorageOk kind s) (hseen : (s.cidByTypename c).isNone = true)
    {xs : List Nat} (hmem : ∀ oid, oid ∈ xs ↔ s.matching types p c cond oid) : xs = [] := by
  rw [List.eq_nil_iff_forall_not_mem]
  intro oid hoid
  rcases record_of_row hs ((hmem oid).mp hoid).row with ⟨rec, hrec, -, -⟩
  have hrow := hs.rowsKnown _ (hs.row hrec.1)
  have hcls := hrec.2
  rw [(hs.shape hrec.1).2, Option.some.injEq] at hcls
  rw [hcls] at hrow
  -- The row of its shape would have been found.
  rw [Option.isNone_iff_eq_none, cidByTypename, Option.map_eq_none_iff,
    List.find?_eq_none] at hseen
  exact hseen _ (List.mem_reverse.mpr hrow) (decide_eq_true rfl)

theorem reading_ok {α : Type} {prog : M α} {s t : Store} {a : α} (h : prog s = .ok a t) :
    reading prog s = .ok a t := by
  rw [reading, h]

theorem ensureIndex_of_built (h : s.index.byCls.get? c = some ci) :
    ensureIndex types c s = .ok ci s := by
  rw [ensureIndex, bind_run_ok (get_run s)]
  refine zoom_ok_iff.mpr ⟨s.index, ?_, rfl⟩
  rw [IndexManager.ensure, bind_run_ok (get_run s.index)]
  simp only [h, pure_run]

/-- The checks a `pluck` begins with. -/
theorem pluck_checked {fields : List String} (hne : fields ≠ [])
    (hfields : ∀ f ∈ fields, f ∈ (types.info c).fieldNames) (limit : Option Nat) (offset : Nat)
    (order : Option OrderBy) : pluck types p c cond fields (limit.map Nat.cast) offset order s =
      if (s.cidByTypename c).isNone then .ok [] s
      else (do
        let ci ← reading (ensureIndex types c)
        let s ← get
        let rows ← ofExcept (s.selectRows (types.info c) ci p cond order ⟨limit, offset⟩)
        pure (rows.map fun row => fields.map row.2) :
          EStateM (ReadErr Err) Store (List (List (Val Token)))) s := by
  have hwindow : (ofExcept ((validateWindow (limit.map Nat.cast) offset).mapError .query) :
      EStateM (ReadErr Err) Store Window) s = .ok ⟨limit, offset⟩ s := by
    rw [validateWindow_ok]
    rfl
  have hsome : (raiseIf fields.isEmpty (.query .noFields) : EStateM (ReadErr Err) Store Unit) s =
      .ok () s := by
    rw [show fields.isEmpty = false by simpa using hne]
    rfl
  have hknown : (ofExcept ((requirePersistedFields (types.info c) fields).mapError .query) :
      EStateM (ReadErr Err) Store Unit) s = .ok () s := by
    have hfind : fields.find? (fun f => !(types.info c).fieldNames.contains f) = none := by
      rw [List.find?_eq_none]
      intro f hf
      simpa using hfields f hf
    rw [requirePersistedFields, hfind]
    rfl
  rw [pluck, bind_run_ok hwindow, bind_run_ok hsome, bind_run_ok hknown, bind_run_ok (get_run s)]
  split
  · rfl
  · rfl

/-- What the reads rely on of a store: its records agree with its shapes, its
    indexes stand for them and do not raise, and a protected record carries the
    labels it is judged by. -/
structure Reliable (fam : String → String → Family) (types : Types) (s : Store) : Prop where
  families : ∀ c f, fam c f ≠ .nan
  storage : ∃ kind, StorageOk kind s
  tidy : s.Tidy (Kin.ofFamilies fam) types
  inStep : s.InStep
  indexed : s.Indexed Watched.anyClass fam types
  filing : s.backend.Filing
  labelled : s.backend.Labelled
  named : s.backend.Named

/-- The reads of a store: there is one listing of the rows the condition keeps and
    the principal may read, and they return its windows and its length. -/
theorem reads_listing {fam : String → String → Family} (hs : s.Reliable fam types)
    {order : Option OrderBy} {parsed : Option (String × Bool)} {fm : Family}
    (hparse : parseOrder order (types.info c) = .ok parsed)
    (h : s.Answerable (fam c) types p c cond parsed fm) :
    ∃ xs, Listing parsed (s.rawView (types.info c)) (s.matching types p c cond) xs ∧
      (∀ fields : List String, fields ≠ [] → (∀ f ∈ fields, f ∈ (types.info c).fieldNames) →
        ∀ (limit : Option Nat) (offset : Nat), ∃ t,
          pluck types p c cond fields (limit.map Nat.cast) offset order s =
            .ok ((applyWindow ⟨limit, offset⟩ xs).map fun oid =>
              fields.map (s.rawView (types.info c) oid)) t) ∧
      ∃ t, count types p c cond s = .ok xs.length t := by
  rcases hs.storage with ⟨kind, hok⟩
  rcases ensureIndex_stands hs.families hok hs.tidy hs.inStep hs.indexed
    (show Watched.anyClass c from trivial) with ⟨ci, m, hensure, hstands⟩
  have hready := readies_of_stands hstands hok hs.inStep.rows hs.indexed.conform hs.labelled
    h.floor h.decodes
  have hok' : StorageOk kind { s with index := m } := hok.congr rfl rfl rfl (le_refl _) rfl
  rcases selectRows_spec hok' h.decodes hready h.evaluable hparse h.orders
    (fun o ho hf => h.comparable ci _ hensure o ho hf) ⟨none, 0⟩ with ⟨xs, hlist, -⟩
  refine ⟨xs, hlist, fun fields hne hfields limit offset => ?_, ?_⟩
  -- A class that storage has never seen yields nothing before its index is asked for.
  · rcases selectRows_spec hok' h.decodes hready h.evaluable hparse h.orders
      (fun o ho hf => h.comparable ci _ hensure o ho hf) ⟨limit, offset⟩ with ⟨ys, hys, hrows⟩
    rw [listing_unique h.orders hlist hys]
    by_cases hseen : (s.cidByTypename c).isNone = true
    · refine ⟨s, ?_⟩
      rw [pluck_checked hne hfields, if_pos hseen, nil_of_unseen hok hseen hys.mem,
        applyWindow_nil]
      rfl
    · refine ⟨{ s with index := m }, ?_⟩
      rw [pluck_checked hne hfields, if_neg hseen, bind_run_ok (reading_ok hensure),
        bind_run_ok (get_run _), hrows, ofExcept, bind_run_ok (pure_run _ _), List.map_map]
      rfl
  -- The count reads the same selection.
  · have hnodup := hlist.nodup h.orders
    have hselects := matchingRows_selects (s := { s with index := m }) hok' h.decodes
    have hcount := countSelected_spec hready hselects h.evaluable hnodup hlist.mem
    by_cases hseen : (s.cidByTypename c).isNone = true
    · refine ⟨s, ?_⟩
      rw [count, bind_run_ok (get_run s), if_pos hseen, nil_of_unseen hok hseen hlist.mem]
      rfl
    · refine ⟨{ s with index := m }, ?_⟩
      rw [count, bind_run_ok (get_run s), if_neg hseen, bind_run_ok (reading_ok hensure),
        bind_run_ok (get_run _), hcount]
      rfl

end Spec

end Store

namespace Watched

open Store

variable {fam : String → String → Family} {fills : String → String → Option (Val Token)}

/-- What every commit keeps of the records holds in a run. -/
theorem run_stored {Q : Backend → Prop} (hempty : Q {})
    (hstored : ∀ (kind : Nat → String) (types : Types) (t : Store) (out : EncodedBatch),
      Coherent kind t → BatchOk types t t.pending.entries t out → Q t.backend →
        Q (t.backend.apply (t.buildBatch out)))
    (types : Types) (attached : Bool) (events : List Event) :
    Q ((begin types attached).run events).world.store.backend := by
  induction events using List.reverseRecOn with
  | nil => exact hempty
  | append_singleton events e ih =>
      rcases run_coherent types attached events with ⟨kind, hc⟩
      rw [run, List.foldl_append]
      change Q (((begin types attached).run events).step e).world.store.backend
      rcases step_storage _ e with hsame | ⟨p, s₁, m, out, t, rfl, hcap, hbackend⟩
      · rw [hsame]
        exact ih
      · rw [hbackend]
        refine hstored kind _ t out (hcap.coherent hc.store) (hcap.batchOk hc.store) ?_
        rw [backend_of_prepares hcap.prepares]
        exact ih

/-- The label columns of a run hold labels. -/
theorem run_labelled (types : Types) (attached : Bool) (events : List Event) :
    ((begin types attached).run events).world.store.backend.Labelled :=
  run_stored (Q := Backend.Labelled) (fun _ _ hrec => nomatch hrec)
    (fun _ _ _ _ hc hb h => stored_labelled hc hb h) types attached events

/-- A shape of a run has no name twice. -/
theorem run_named (types : Types) (attached : Bool) (events : List Event) :
    ((begin types attached).run events).world.store.backend.Named :=
  run_stored (Q := Backend.Named) (fun _ _ hrec => nomatch hrec)
    (fun _ _ _ _ hc hb h => stored_named hc hb h) types attached events

/-- A store that a run comes to can be read. -/
theorem run_reliable (hfam : ∀ c f, fam c f ≠ .nan) (types : Types) (attached : Bool)
    (events : List Event)
    (hrun : EachStep step (KeepsIndexed anyClass fam fills) (begin types attached) events) :
    let w := ((begin types attached).run events).world
    w.store.Reliable fam w.types := by
  intro w
  rcases run_coherent types attached events with ⟨kind, hc⟩
  rcases run_indexed hfam (fun _ => trivial) types attached events hrun with ⟨hkeeps, hindexed⟩
  have hin : w.store.InStep := run_inStep types attached events hkeeps
  exact {
    families := hfam
    storage := ⟨kind, hc.store.storage⟩
    tidy := (run_tidy types attached events hkeeps).store
    inStep := hin
    indexed := hindexed.store
    filing := ⟨hc.store.storage.filed, hin.stored, run_filedAs types attached events⟩
    labelled := run_labelled types attached events
    named := run_named types attached events }

end Watched

end DataCrystal
