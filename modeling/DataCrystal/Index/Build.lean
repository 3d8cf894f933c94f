import DataCrystal.Records
import DataCrystal.Index.Represents

/-!
# Building an Index from Records

A class's index is derived data: it is built by scanning every shape of the
class's lineage, and whatever a session did before, a rebuild from the committed
records is what its index should have been.

`scannedRows` lists the rows in the order the scan meets them. `build_spec` is
the content of a build: the index stands for those rows. Colliding unique
values are not refused by a scan, the last one met takes the key, so a build
stands for its rows up to the keys that `lostIn` says were taken over.

## Main definitions

* `schemaEvolutionFill`: The fields a shape lacks must have a fill.
* `buildClassIndexes`: The scan.
* `scannedRows`: The rows in scan order.
* `rowsOf`: The rows as a function of the OID.
* `lostIn`: A later row holds the key as well.

## Theorems

* `insertAll_spec`: Folding in rows one after the other.
* `build_spec`: A build stands for the scanned rows.
-/

namespace DataCrystal

/-- The unique field, if any, that a shape lacks and that fills with a value
    all its records would share. A maintained field without a fill raises. -/
def schemaEvolutionFill (ti : TypeInfo) (persisted : List String) :
    Except Err (Option String) :=
  (ti.maintainedFields.filter fun n => !persisted.contains n).foldlM (fun colliding name =>
    match ti.fill (ρ := Token) name with
    | none => .error (.schemaMismatch name)
    | some v =>
      -- One value for all the old records would collide, so `None` alone fills a unique field.
      if ti.uniqueFields.contains name && !(v matches .none) then .ok (some name)
      else .ok colliding) none

/-- The order a build reads the maintained fields in: those a shape has, then
    those it is filled with. -/
def scanOrder (ti : TypeInfo) (persisted : List String) : List String :=
  (ti.maintainedFields.filter fun n => persisted.contains n) ++
    ti.maintainedFields.filter fun n => !persisted.contains n

theorem mem_scanOrder (ti : TypeInfo) (persisted : List String) (f : String) :
    f ∈ scanOrder ti persisted ↔ f ∈ ti.maintainedFields := by
  rw [scanOrder, List.mem_append, List.mem_filter, List.mem_filter]
  cases persisted.contains f <;> simp

/-- Index one record of a shape; a class with no maintained field enters the
    extent only. -/
def indexRecord (ti : TypeInfo) (persisted : List String) (colliding : Option String)
    (rec : StoredRecord) : EStateM Err ClassIndexes Unit := do
  -- Raised at the first record, as a shape without records collides with nothing.
  match colliding with
  | some name => throw (.schemaMismatch name)
  | none =>
    ClassIndexes.insert rec.oid
      (ClassIndexes.entryIn (scanOrder ti persisted) (recordRow ti persisted rec.payload))

/-- Index the records of one shape. -/
def indexShape (ti : TypeInfo) (scan : Nat → List StoredRecord) (shape : Nat × List String) :
    EStateM Err ClassIndexes Unit := do
  if ti.maintainedFields.isEmpty then
    (scan shape.1).forM fun rec =>
      modify fun ci => ci.setExtent (Insert.insert rec.oid ci.extent)
  else
    -- Once a shape, not once a record.
    let colliding ← ofExcept (schemaEvolutionFill ti shape.2)
    (scan shape.1).forM (indexRecord ti shape.2 colliding)

/-- Empty indexes in bulk mode, which sorts the runs once at the end. -/
def bulkInit (ti : TypeInfo) : ClassIndexes :=
  { ClassIndexes.init ti.eqIndexFields ti.uniqueFields ti.listFields ti.sortedFields with
    building := true }

def buildProgram (ti : TypeInfo) (lineage : Lineage) (scan : Nat → List StoredRecord) :
    EStateM Err ClassIndexes Unit := do
  lineage.forM (indexShape ti scan)
  ClassIndexes.finalizeBuild

/-- Build a class's indexes by scanning its whole lineage. -/
def buildClassIndexes (ti : TypeInfo) (lineage : Lineage) (scan : Nat → List StoredRecord) :
    Except Err ClassIndexes :=
  match buildProgram ti lineage scan (bulkInit ti) with
  | .ok _ ci => .ok ci
  | .error e _ => .error e

/-- The rows of a class in the order a scan meets them. -/
def scannedRows (ti : TypeInfo) (lineage : Lineage) (scan : Nat → List StoredRecord) :
    List (Nat × (String → Val Token)) :=
  lineage.flatMap fun shape =>
    (scan shape.1).map fun rec => (rec.oid, recordRow ti shape.2 rec.payload)

/-- Every shape has a fill for the fields it lacks, and a shape whose records
    would share a unique value has none. -/
def Admits (ti : TypeInfo) (lineage : Lineage) (scan : Nat → List StoredRecord) : Prop :=
  ti.maintainedFields = [] ∨ ∀ shape ∈ lineage,
    ∃ c, schemaEvolutionFill ti shape.2 = .ok c ∧ (c = none ∨ scan shape.1 = [])

section Rows

variable {ρ : Type}

/-- The keys of a list of rows, as a function of the OID. -/
def rowsOf (ti : TypeInfo) (rows : List (Nat × (String → Val ρ))) : Rows := fun oid =>
  (rows.find? fun e => e.1 = oid).map fun e => rowKeys ti e.2

/-- The value of every field of an OID, in a list of rows. -/
def rowView (rows : List (Nat × (String → Val ρ))) (oid : Nat) : String → Val ρ :=
  match rows.find? fun e => e.1 = oid with
  | some e => e.2
  | none => fun _ => .none

/-- A key of a row that a later row holds as well. -/
def lostIn (ti : TypeInfo) (rows : List (Nat × (String → Val ρ))) : Lost := fun f k oid =>
  ∃ before row after, rows = before ++ (oid, row) :: after ∧
    ∃ e ∈ after, some k ∈ rowKeys ti e.2 f

end Rows

section Spec

open ClassIndexes

variable {fam : String → Family} {ti : TypeInfo} {ρ : Type}

theorem rowsOf_append (rows : List (Nat × (String → Val ρ))) (oid : Nat) (row : String → Val ρ)
    (hnew : oid ∉ rows.map Prod.fst) :
    rowsOf ti (rows ++ [(oid, row)]) =
      Function.update (rowsOf ti rows) oid (some (rowKeys ti row)) := by
  funext n
  rw [rowsOf, List.find?_append]
  by_cases hn : n = oid
  · rw [hn, Function.update_self]
    have hnone : rows.find? (fun e => e.1 = oid) = none := by
      rw [List.find?_eq_none]
      intro e he hc
      exact hnew (List.mem_map.mpr ⟨e, he, by simpa using hc⟩)
    simp [hnone]
  · rw [Function.update_of_ne hn, rowsOf]
    have hne : ¬oid = n := fun hc => hn hc.symm
    simp [hne]

theorem mem_of_recalled_rowsOf {rows : List (Nat × (String → Val ρ))} {n : Nat} {f : String}
    {k : Option Key} (h : k ∈ recalled (rowsOf ti rows n) f) :
    ∃ row, (n, row) ∈ rows ∧ k ∈ rowKeys ti row f := by
  rw [rowsOf] at h
  cases hfind : rows.find? fun e => e.1 = n with
  | none => rw [hfind] at h; exact absurd h List.not_mem_nil
  | some e =>
      rw [hfind] at h
      have hn : e.1 = n := by simpa using List.find?_some hfind
      exact ⟨e.2, hn ▸ List.mem_of_find?_eq_some hfind, h⟩

theorem find?_of_mem {rows : List (Nat × (String → Val ρ))} (hnd : (rows.map Prod.fst).Nodup)
    {e : Nat × (String → Val ρ)} (he : e ∈ rows) : rows.find? (fun d => d.1 = e.1) = some e := by
  cases hfind : rows.find? fun d => d.1 = e.1 with
  | none =>
      rw [List.find?_eq_none] at hfind
      exact absurd (decide_eq_true rfl) (hfind e he)
  | some d =>
      have hd : d.1 = e.1 := by simpa using List.find?_some hfind
      rw [List.inj_on_of_nodup_map hnd (List.mem_of_find?_eq_some hfind) he hd]

/-- A row of the list is the row of its OID. -/
theorem rowsOf_of_mem {rows : List (Nat × (String → Val ρ))} (hnd : (rows.map Prod.fst).Nodup)
    {e : Nat × (String → Val ρ)} (he : e ∈ rows) :
    rowsOf ti rows e.1 = some (rowKeys ti e.2) ∧ rowView rows e.1 = e.2 := by
  rw [rowsOf, rowView, find?_of_mem hnd he]
  exact ⟨rfl, rfl⟩

theorem rowsOf_eq_some {rows : List (Nat × (String → Val ρ))} {oid : Nat}
    {r : String → List (Option Key)} (h : rowsOf ti rows oid = some r) :
    ∃ e ∈ rows, e.1 = oid ∧ r = rowKeys ti e.2 ∧ rowView rows oid = e.2 := by
  rw [rowsOf] at h
  rcases Option.map_eq_some_iff.mp h with ⟨e, hfind, hr⟩
  refine ⟨e, List.mem_of_find?_eq_some hfind, by simpa using List.find?_some hfind, hr.symm, ?_⟩
  rw [rowView, hfind]

/-- The last row holding a key has not lost it. -/
theorem exists_not_lostIn {rows : List (Nat × (String → Val ρ))}
    (hnd : (rows.map Prod.fst).Nodup) {f : String} {k : Key} {e : Nat × (String → Val ρ)}
    (he : e ∈ rows) (hk : some k ∈ rowKeys ti e.2 f) :
    ∃ d ∈ rows, some k ∈ rowKeys ti d.2 f ∧ ¬lostIn ti rows f k d.1 := by
  have hfind : (rows.reverse.find? fun d => decide (some k ∈ rowKeys ti d.2 f)).isSome := by
    rw [List.find?_isSome]
    exact ⟨e, List.mem_reverse.mpr he, by simpa using hk⟩
  rcases Option.isSome_iff_exists.mp hfind with ⟨d, hd⟩
  rcases List.find?_eq_some_iff_append.mp hd with ⟨hdk, after, before, hrev, hafter⟩
  have hrows : rows = before.reverse ++ d :: after.reverse := by
    rw [← List.reverse_reverse rows, hrev]
    simp
  have hmem : d ∈ rows := List.mem_reverse.mp (List.mem_of_find?_eq_some hd)
  refine ⟨d, hmem, by simpa using hdk, ?_⟩
  rintro ⟨before', row, after', hrows', e', he', hk'⟩
  -- The rows are distinct, so the two ways to split the list at `d` agree.
  have hsame : (d.1, row) = d := by
    refine List.inj_on_of_nodup_map hnd ?_ hmem rfl
    rw [hrows']
    simp
  have hnodup := hnd.of_map
  rw [hrows'] at hrows hnodup
  rw [hsame] at hrows hnodup
  rw [List.nodup_append, List.nodup_cons] at hnodup
  rcases (List.append_cons_inj_of_notMem (fun hc => hnodup.2.2 d hc d List.mem_cons_self rfl)
    hnodup.2.1.1).mp hrows with ⟨-, -, hafter'⟩
  rw [hafter', List.mem_reverse] at he'
  have hno := hafter e' he'
  simp [hk'] at hno

/-- What the scan has built so far stands for the rows met so far. A unique key that
    two rows hold is lost to the earlier one, and the runs are left to the end. -/
structure Built (fam : String → Family) (ti : TypeInfo) (rows : List (Nat × (String → Val ρ)))
    (ci : ClassIndexes) : Prop where
  represents : Represents ti (rowsOf ti rows) (lostIn ti rows) ci
  sound : Sound fam ci
  building : ci.building = true

/-- Folding in the next row. -/
theorem built_insert {rows : List (Nat × (String → Val ρ))} {ci : ClassIndexes}
    (h : Built fam ti rows ci) (oid : Nat) {fields : List String}
    (hfields : ∀ f, f ∈ fields ↔ f ∈ ti.maintainedFields) (row : String → Val ρ)
    (hnew : oid ∉ rows.map Prod.fst) (hrow : Conforms fam ti row) :
    ∃ ci', ClassIndexes.insert oid (entryIn fields row) ci = .ok () ci' ∧
      Built fam ti (rows ++ [(oid, row)]) ci' := by
  have hmono : Represents ti (rowsOf ti rows) (lostIn ti (rows ++ [(oid, row)])) ci := by
    refine represents_mono h.represents fun f k n _ hlost => ?_
    rcases hlost with ⟨before, r, after, heq, e, he, hk⟩
    exact ⟨before, r, after ++ [(oid, row)], by simp [heq], e, List.mem_append_left _ he, hk⟩
  rcases represents_insert hmono h.sound oid hfields row hrow.keyed hrow.ordered
    (fun f _ k n hk _ hn => by
      -- An earlier row with the same key is overtaken by this one.
      rcases mem_of_recalled_rowsOf hn with ⟨r, hmem, -⟩
      rcases List.append_of_mem hmem with ⟨before, after, heq⟩
      exact ⟨before, r, after ++ [(oid, row)], by simp [heq], (oid, row), by simp, hk⟩) with
    ⟨ci', hrun, hrep, hs, hb⟩
  refine ⟨ci', hrun, ?_, hs, hb.trans h.building⟩
  rw [rowsOf_append rows oid row hnew]
  exact hrep

/-- A class without maintained fields keeps its extent only. -/
theorem built_extent {rows : List (Nat × (String → Val ρ))} {ci : ClassIndexes}
    (h : Built fam ti rows ci) (hno : ti.maintainedFields = []) (oid : Nat)
    (row : String → Val ρ) (hnew : oid ∉ rows.map Prod.fst) :
    Built fam ti (rows ++ [(oid, row)]) (ci.setExtent (Insert.insert oid ci.extent)) := by
  have heq : ∀ f, f ∉ ti.eqIndexFields := fun f hf => by
    have hm := (ti.mem_maintainedFields f).mpr (Or.inl hf)
    rw [hno] at hm
    exact List.not_mem_nil hm
  have huniq : ∀ f, f ∉ ti.uniqueFields := fun f hf => by
    have hm := (ti.mem_maintainedFields f).mpr (Or.inr hf)
    rw [hno] at hm
    exact List.not_mem_nil hm
  refine ⟨⟨h.represents.eqKeys, h.represents.uniqueKeys, h.represents.listFields,
    h.represents.sortedFields, fun n => ?_, fun f hf => absurd hf (heq f),
    fun f hf => absurd hf (huniq f), fun f hf => absurd hf (huniq f),
    fun _ f hf => absurd hf (heq f), fun _ f hf => absurd hf (huniq f)⟩,
    ⟨h.sound.ordered, h.sound.keys, h.sound.ascending, h.sound.run⟩, h.building⟩
  rw [rowsOf_append rows oid row hnew, setExtent, Finset.mem_insert, h.represents.extent]
  by_cases hn : n = oid
  · simp [hn]
  · rw [Function.update_of_ne hn]
    simp [hn]

/-- The records of one shape, folded in after the rows met so far. -/
theorem built_shape (scan : Nat → List StoredRecord) (shape : Nat × List String)
    (hadm : ti.maintainedFields = [] ∨
      ∃ c, schemaEvolutionFill ti shape.2 = .ok c ∧ (c = none ∨ scan shape.1 = []))
    {rows : List (Nat × (String → Val Token))} {ci : ClassIndexes} (h : Built fam ti rows ci)
    (hnd : ((rows ++ (scan shape.1).map fun rec =>
      (rec.oid, recordRow ti shape.2 rec.payload)).map Prod.fst).Nodup)
    (hconf : ∀ rec ∈ scan shape.1, Conforms fam ti (recordRow ti shape.2 rec.payload)) :
    ∃ ci', indexShape ti scan shape ci = .ok () ci' ∧
      Built fam ti (rows ++ (scan shape.1).map fun rec =>
        (rec.oid, recordRow ti shape.2 rec.payload)) ci' := by
  -- One step is the same in both branches: the next record enters.
  have hloop : ∀ (step : StoredRecord → EStateM Err ClassIndexes Unit),
      (∀ rec ∈ scan shape.1, ∀ (rows : List (Nat × (String → Val Token))) (ci : ClassIndexes),
        Built fam ti rows ci → rec.oid ∉ rows.map Prod.fst →
        ∃ ci', step rec ci = .ok () ci' ∧
          Built fam ti (rows ++ [(rec.oid, recordRow ti shape.2 rec.payload)]) ci') →
      ∃ ci', (scan shape.1).forM step ci = .ok () ci' ∧
        Built fam ti (rows ++ (scan shape.1).map fun rec =>
          (rec.oid, recordRow ti shape.2 rec.payload)) ci' := by
    intro step hstep
    clear hadm hconf
    generalize scan shape.1 = recs at hstep hnd ⊢
    induction recs generalizing rows ci with
    | nil => exact ⟨ci, rfl, by simpa using h⟩
    | cons rec recs ih =>
        have hsplit : rows ++ (rec :: recs).map (fun rec =>
            (rec.oid, recordRow ti shape.2 rec.payload)) =
            (rows ++ [(rec.oid, recordRow ti shape.2 rec.payload)]) ++ recs.map fun rec =>
              (rec.oid, recordRow ti shape.2 rec.payload) := by simp
        have hnew : rec.oid ∉ rows.map Prod.fst := by
          rw [List.map_append, List.nodup_append] at hnd
          exact fun hc => hnd.2.2 _ hc _ (by simp) rfl
        rcases hstep rec List.mem_cons_self rows ci h hnew with ⟨ci₁, hrun, h₁⟩
        rw [hsplit] at hnd ⊢
        rcases ih h₁ (fun r hr => hstep r (List.mem_cons_of_mem rec hr)) hnd with
          ⟨ci₂, hruns, h₂⟩
        exact ⟨ci₂, by rw [forM_cons_run, bind_run_ok hrun]; exact hruns, h₂⟩
  rw [indexShape]
  by_cases hno : ti.maintainedFields = []
  · rw [if_pos (by rw [hno]; rfl)]
    exact hloop _ fun rec _ rows ci hb hnew =>
      ⟨_, rfl, built_extent hb hno rec.oid _ hnew⟩
  · rw [if_neg (by rw [List.isEmpty_iff]; exact hno)]
    rcases hadm.resolve_left hno with ⟨c, hfill, hc⟩
    rw [bind_run_ok (ofExcept_run_ok hfill ci)]
    rcases hc with rfl | hempty
    · exact hloop _ fun rec hrec rows ci hb hnew =>
        built_insert hb rec.oid (mem_scanOrder ti shape.2) _ hnew (hconf rec hrec)
    · rw [hempty]
      exact ⟨ci, rfl, by simpa using h⟩

theorem scannedRows_cons (shape : Nat × List String) (lineage : Lineage)
    (scan : Nat → List StoredRecord) :
    scannedRows ti (shape :: lineage) scan = ((scan shape.1).map fun rec =>
      (rec.oid, recordRow ti shape.2 rec.payload)) ++ scannedRows ti lineage scan := rfl

/-- The shapes of a lineage, folded in one after the other. -/
theorem built_lineage (scan : Nat → List StoredRecord) (lineage : Lineage) :
    ∀ {rows : List (Nat × (String → Val Token))} {ci : ClassIndexes}, Admits ti lineage scan →
      Built fam ti rows ci → ((rows ++ scannedRows ti lineage scan).map Prod.fst).Nodup →
      (∀ e ∈ scannedRows ti lineage scan, Conforms fam ti e.2) →
      ∃ ci', lineage.forM (indexShape ti scan) ci = .ok () ci' ∧
        Built fam ti (rows ++ scannedRows ti lineage scan) ci' := by
  induction lineage with
  | nil =>
      intro rows ci _ h _ _
      exact ⟨ci, rfl, by simpa [scannedRows] using h⟩
  | cons shape lineage ih =>
      intro rows ci hadm h hnd hconf
      rw [scannedRows_cons, ← List.append_assoc] at hnd
      have hnd' := hnd
      rw [List.map_append, List.nodup_append] at hnd'
      rcases built_shape scan shape (hadm.imp_right fun ha => ha shape List.mem_cons_self) h
        hnd'.1 (fun rec hrec => hconf (rec.oid, _) (by
          rw [scannedRows_cons]
          exact List.mem_append_left _ (List.mem_map.mpr ⟨rec, hrec, rfl⟩))) with ⟨ci₁, hrun, h₁⟩
      rcases ih (hadm.imp_right fun ha s hs => ha s (List.mem_cons_of_mem shape hs)) h₁ hnd
        (fun e he => hconf e (by
          rw [scannedRows_cons]
          exact List.mem_append_right _ he)) with ⟨ci₂, hruns, h₂⟩
      refine ⟨ci₂, by rw [forM_cons_run, bind_run_ok hrun]; exact hruns, ?_⟩
      rw [scannedRows_cons, ← List.append_assoc]
      exact h₂

theorem built_init (hfam : ∀ f ∈ ti.sortedFields, fam f ≠ .nan) :
    Built (ρ := ρ) fam ti [] (bulkInit ti) := by
  have hempty : ∀ f k, (bulkInit ti).posting? f k = none := by
    intro f k
    rw [posting?, bulkInit, ClassIndexes.init, Dict.get?_ofList_const]
    split <;> rfl
  have hfree : ∀ f k, (bulkInit ti).holder f k = none := by
    intro f k
    rw [holder, bulkInit, ClassIndexes.init, Dict.get?_ofList_const]
    split <;> rfl
  have hrow : ∀ n f, recalled (rowsOf (ρ := ρ) ti [] n) f = [] := fun _ _ => rfl
  have hlast : ∀ n f, recalled ((bulkInit ti).withLastValues.lastValues n) f = [] :=
    fun _ _ => rfl
  refine ⟨⟨fun f => ?_, fun f => ?_, fun _ => Iff.rfl, fun _ => Iff.rfl, fun n => ?_,
    fun f _ k n => ?_, fun f _ k n hn => ?_, fun f _ k n hn => ?_, fun n f _ k => ?_, fun n f _ k => ?_⟩,
    ⟨hfam, fun f _ k hk => ?_, fun hb => ?_, fun hb => ?_⟩, rfl⟩
  · rw [Dict.mem_keys_iff, bulkInit, ClassIndexes.init, Dict.get?_ofList_const]
    simp
  · rw [Dict.mem_keys_iff, bulkInit, ClassIndexes.init, Dict.get?_ofList_const]
    simp
  · simp [bulkInit, ClassIndexes.init, rowsOf]
  · rw [mem_posting_iff, hempty, hrow]
    simp
  · rw [hfree] at hn
    simp at hn
  · rw [hrow] at hn
    exact absurd hn List.not_mem_nil
  · rw [hlast, hrow]
  · rw [hlast, hrow]
  · rw [hempty] at hk
    simp at hk
  · simp [bulkInit] at hb
  · simp [bulkInit] at hb

theorem distinctKeys_nodup (ci : ClassIndexes) (f : String) : (ci.distinctKeys f).Nodup := by
  rw [distinctKeys]
  cases ci.eq.get? f with
  | none => exact List.nodup_nil
  | some col =>
      refine List.Nodup.filterMap ?_ col.nodup_keys
      intro a b k ha hb
      simp only [id_eq, Option.mem_def] at ha hb
      rw [ha, hb]

theorem mem_distinctKeys (ci : ClassIndexes) (f : String) (k : Key) :
    k ∈ ci.distinctKeys f ↔ (ci.posting? f (some k)).isSome := by
  rw [distinctKeys, posting?]
  cases ci.eq.get? f with
  | none => simp
  | some col =>
      simp only [Option.map_some, Option.getD_some, List.mem_filterMap, id_eq, exists_eq_right,
        Option.bind_some]
      rw [Dict.mem_keys_iff, Option.isSome_iff_exists]

/-- The loop of `finalizeBuild` sorts each run and changes nothing else. -/
theorem finalizeRuns_spec (keysOf : String → List Key) (sorted : String → List Key)
    (decs : String → Key → Bool) (fields : List String)
    (hsort : ∀ f ∈ fields, buildRun f (decs f) (keysOf f) = .ok (sorted f)) :
    ∀ ci : ClassIndexes, ∃ runs, (fields.forM fun f => do
        let run ← ofExcept (buildRun f (decs f) (keysOf f))
        modify fun ci => { ci with sortedKeys := ci.sortedKeys.set f run } :
          EStateM Err ClassIndexes PUnit) ci = .ok () { ci with sortedKeys := runs } ∧
      ∀ f, runs.getD f [] = if f ∈ fields then sorted f else ci.run f := by
  induction fields with
  | nil =>
      intro ci
      exact ⟨ci.sortedKeys, rfl, fun f => by simp [run]⟩
  | cons f fields ih =>
      intro ci
      rcases ih (fun g hg => hsort g (List.mem_cons_of_mem f hg))
        { ci with sortedKeys := ci.sortedKeys.set f (sorted f) } with ⟨runs, hruns, hget⟩
      refine ⟨runs, ?_, fun g => ?_⟩
      · rw [forM_cons_run]
        have hstep : (do
            let run ← ofExcept (buildRun f (decs f) (keysOf f))
            modify fun ci => { ci with sortedKeys := ci.sortedKeys.set f run } :
              EStateM Err ClassIndexes PUnit) ci =
            .ok () { ci with sortedKeys := ci.sortedKeys.set f (sorted f) } := by
          rw [bind_run_ok (ofExcept_run_ok (hsort f List.mem_cons_self) ci)]
          rfl
        rw [bind_run_ok hstep]
        exact hruns
      · rw [hget, run, Dict.getD, Dict.get?_set]
        by_cases hg : g = f
        · simp [hg]
        · simp [hg, run, Dict.getD]

/-- Sorting the runs asks for the keys only, and ends a bulk build. -/
theorem finalizeBuild_spec {ci : ClassIndexes} (hfam : ∀ f ∈ ci.sortedFields, fam f ≠ .nan)
    (hkeys : ∀ f ∈ ci.sortedFields, ∀ k, (ci.posting? f (some k)).isSome → k.family = fam f) :
    ∃ runs, finalizeBuild ci = .ok () { ci with sortedKeys := runs, building := false } ∧
      Sound fam { ci with sortedKeys := runs, building := false } := by
  -- The keys of a field are of one family, so the run is sorted.
  have hsorted : ∀ f ∈ ci.sortedFields, ∃ run, buildRun f (ci.decimals f) (ci.distinctKeys f) = .ok run ∧
      Ascending Key.lt run ∧ ∀ k, k ∈ run ↔ k ∈ ci.distinctKeys f := by
    intro f hf
    have hall : ∀ k ∈ ci.distinctKeys f, k.family = fam f := fun k hk =>
      hkeys f hf k ((mem_distinctKeys ci f k).mp hk)
    rcases sortedRun_spec (Key.orderedOn_ltOf (ci.decimals f) (fam f) (hfam f hf)) hall
      (distinctKeys_nodup ci f) with ⟨run, hrun, hasc, hmem⟩
    exact ⟨run, by rw [buildRun, hrun], (Key.ascending_ltOf _ (hfam f hf)
      fun k hk => hall k ((hmem k).mp hk)).mp hasc, hmem⟩
  -- The runs the build arrives at.
  let sorted : String → List Key := fun f =>
    match buildRun f (ci.decimals f) (ci.distinctKeys f) with
    | .ok run => run
    | .error _ => []
  have hsort : ∀ f ∈ ci.sortedFields, buildRun f (ci.decimals f) (ci.distinctKeys f) = .ok (sorted f) ∧
      Ascending Key.lt (sorted f) ∧ ∀ k, k ∈ sorted f ↔ k ∈ ci.distinctKeys f := by
    intro f hf
    rcases hsorted f hf with ⟨run, hrun, hspec⟩
    have heq : sorted f = run := by simp only [sorted, hrun]
    rw [heq]
    exact ⟨hrun, hspec⟩
  rcases finalizeRuns_spec ci.distinctKeys sorted ci.decimals ci.sortedFields (fun f hf => (hsort f hf).1)
    ci with ⟨runs, hruns, hget⟩
  refine ⟨runs, ?_, hfam, hkeys, fun _ f hf => ?_, fun _ f hf k => ?_⟩
  · rw [finalizeBuild, bind_run_ok (get_run ci), bind_run_ok hruns]
    rfl
  · change Ascending Key.lt (runs.getD f [])
    rw [hget, if_pos hf]
    exact (hsort f hf).2.1
  · change k ∈ runs.getD f [] ↔ (ci.posting? f (some k)).isSome
    rw [hget, if_pos hf, (hsort f hf).2.2, mem_distinctKeys]

/-- A build stands for the scanned rows, up to the keys that later rows took. -/
theorem build_spec (lineage : Lineage) (scan : Nat → List StoredRecord)
    (hfam : ∀ f ∈ ti.sortedFields, fam f ≠ .nan) (hadm : Admits ti lineage scan)
    (hnd : ((scannedRows ti lineage scan).map Prod.fst).Nodup)
    (hconf : ∀ e ∈ scannedRows ti lineage scan, Conforms fam ti e.2) :
    ∃ ci, buildClassIndexes ti lineage scan = .ok ci ∧
      Represents ti (rowsOf ti (scannedRows ti lineage scan))
        (lostIn ti (scannedRows ti lineage scan)) ci ∧ Sound fam ci ∧ ci.building = false := by
  rcases built_lineage scan lineage hadm (built_init hfam) (by simpa using hnd) hconf with
    ⟨ci, hrun, hbuilt⟩
  rw [List.nil_append] at hbuilt
  rcases finalizeBuild_spec hbuilt.sound.ordered hbuilt.sound.keys with ⟨runs, hfin, hs⟩
  refine ⟨{ ci with sortedKeys := runs, building := false }, ?_, ?_, hs, rfl⟩
  · rw [buildClassIndexes, buildProgram, bind_run_ok hrun, hfin]
  · have hrep := hbuilt.represents
    have hmem : ({ ci with sortedKeys := runs, building := false } :
        ClassIndexes).withLastValues.lastValues = ci.withLastValues.lastValues := by
      rw [withLastValues, withLastValues]
      split <;> rfl
    exact ⟨hrep.eqKeys, hrep.uniqueKeys, hrep.listFields, hrep.sortedFields, hrep.extent,
      hrep.posting, hrep.holds, hrep.held, by rw [hmem]; exact hrep.memory,
      by rw [hmem]; exact hrep.uniqueMemory⟩

/-- A build that did not raise had a lineage it could read. -/
theorem admits_of_build {lineage : Lineage} {scan : Nat → List StoredRecord} {ci : ClassIndexes}
    (h : buildClassIndexes ti lineage scan = .ok ci) : Admits ti lineage scan := by
  rw [buildClassIndexes] at h
  cases hrun : buildProgram ti lineage scan (bulkInit ti) with
  | error e s => rw [hrun] at h; simp at h
  | ok u s =>
      rcases bind_ok_iff.mp hrun with ⟨_, t, hshapes, -⟩
      by_cases hno : ti.maintainedFields = []
      · exact Or.inl hno
      · refine Or.inr fun shape hshape => ?_
        rcases forM_ok_mem hshapes shape hshape with ⟨t₁, t₂, hone⟩
        rw [indexShape, if_neg (by rw [List.isEmpty_iff]; exact hno)] at hone
        rcases bind_ok_iff.mp hone with ⟨c, t₃, hfill, hrecs⟩
        refine ⟨c, (ofExcept_ok_iff.mp hfill).1, ?_⟩
        cases c with
        | none => exact Or.inl rfl
        | some name =>
            refine Or.inr (List.eq_nil_iff_forall_not_mem.mpr fun rec hrec => ?_)
            rcases forM_ok_mem hrecs rec hrec with ⟨t₄, t₅, hrec⟩
            simp [indexRecord, throw_run] at hrec

end Spec

end DataCrystal
