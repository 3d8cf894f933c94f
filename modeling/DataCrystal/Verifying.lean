import DataCrystal.Evolution

/-!
# What verify() Finds

`verify` scans every shape of every class and lists the records that do not decode to
their live class. It should never raise, and list exactly those.

It can raise: only five families of exceptions are caught, and a function on an old record
may raise any other; and the checksum of a record is compared inside the scan, where nothing
is caught at all. When it returns it lists no record that decodes, but it can miss one. The
probe makes the plan, takes the width and runs the functions of the fields, as the decoding
does. It reads no column and calls no default factory. A payload that is a map of the right
length has no columns to read, and a factory may raise: there the decoding fails behind a
probe that passed.

## Main definitions

* `Contents.Decodes`: A record decodes to its live class.
* `Contents.VerifyIsExact`: `verify` returns, and lists exactly the records that do not
  decode.
* `Contents.Contained`: What the records raise is what `verify` catches.
* `Contents.Covered`: What the probe passes over is in order.

## Theorems

* `fillEntity_ok_iff`: A record decodes if its probe passes and the rest is in order.
* `verify_ok_iff`: When `verify` returns, and what.
* `verify_exact_iff`: `verify` is total and exact exactly on contents that are contained and
  covered.
-/

namespace DataCrystal

namespace Evolution

section Definitions

variable {V P : Type}

/-- A record of a scan decodes to the live class of its name, as a load would fill
    it, factories and all. -/
def Contents.Decodes (p : Process V P) (c : Contents P) (typename : String) (cid : ℤ)
    (record : Except Raised P) : Prop :=
  ∃ payload ti values, record = .ok payload ∧ p.types typename = some ti ∧
    fillEntity p ti (c.persistedFields cid) payload = .ok values

/-- A class has a record under an OID that does not decode. -/
def Contents.Undecodable (p : Process V P) (c : Contents P) (typename : String) (oid : ℤ) : Prop :=
  ∃ cids, (typename, cids) ∈ c.cidsByTypename.entries ∧ ∃ cid ∈ cids, ∃ record,
    (oid, record) ∈ c.scanType cid ∧ ¬c.Decodes p typename cid record

/-- `verify` returns, and lists exactly the records that do not decode. -/
def Contents.VerifyIsExact (p : Process V P) (c : Contents P) : Prop :=
  ∃ failures, c.verify p = .ok failures ∧
    ∀ typename oid, (typename, oid) ∈ failures ↔ c.Undecodable p typename oid

/-- No record raises in the scan, and what building the plan, decoding the payload, taking
    its width or running the function of a field raises is of the families `verify`
    catches. -/
def Contents.Contained (p : Process V P) (c : Contents P) : Prop :=
  ∀ e ∈ c.cidsByTypename.entries, ∀ cid ∈ e.2, ∀ row ∈ c.scanType cid, ∃ payload,
    row.2 = .ok payload ∧ ∀ ti err, p.types e.1 = some ti →
      decodeCheck p ti (c.persistedFields cid) payload = .error err → err.caught = true

/-- What the probe passes over at a step of a plan is in order: the column it names can be
    read, and the factory it calls returns. -/
def PlanEntry.Fills (values : Unpacked V) (e : PlanEntry V) : Prop :=
  (∀ i, e.index = some i → ∃ v, values.item i = .ok v) ∧
    (e.index = none → e.spec.glue = none → ∃ v, e.factory = some (.ok v))

/-- What the probe passes over is in order at every record that passes it. The probe
    reads no column and calls no factory, where a load does both. -/
def Contents.Covered (p : Process V P) (c : Contents P) : Prop :=
  ∀ e ∈ c.cidsByTypename.entries, ∀ cid ∈ e.2, ∀ row ∈ c.scanType cid, ∀ payload ti plan values,
    row.2 = .ok payload → p.types e.1 = some ti →
      hydrationPlan p.legacyFills ti (c.persistedFields cid) = .ok plan →
        p.decode payload = .ok values →
          decodeCheck p ti (c.persistedFields cid) payload = .ok () →
            ∀ x ∈ plan, x.Fills values

end Definitions

section Probes

variable {V P : Type} {p : Process V P} {ti : LiveClass V} {persisted : List String}

/-- A field can be filled if its function, where it has one, returns, and what the probe
    passes over is in order. -/
theorem fillField_ok_iff {values : Unpacked V} {e : PlanEntry V} :
    (∃ v, fillField persisted values e = .ok v) ↔
      runGlue persisted values e = .ok () ∧ e.Fills values := by
  rw [fillField, runGlue, PlanEntry.Fills]
  cases hindex : e.index with
  | some i =>
      -- The probe does not look at the column.
      simp only [Option.some.injEq, forall_eq', reduceCtorEq, false_implies, and_true]
      exact ⟨fun h => ⟨rfl, h⟩, fun h => h.2⟩
  | none =>
      cases hglue : e.spec.glue with
      | some glue =>
          simp only [reduceCtorEq, false_implies, implies_true, and_true]
          cases glue (byName persisted values.iter) with
          | ok v => exact ⟨fun _ => rfl, fun _ => ⟨v, rfl⟩⟩
          | error err => exact ⟨fun ⟨v, h⟩ => (nomatch h), fun h => (nomatch h)⟩
      | none =>
          -- Nor does it call the factory.
          simp only [reduceCtorEq, false_implies, implies_true, true_and, forall_const]
          cases e.factory with
          | some factory =>
              simp only [Option.some.injEq]
              exact ⟨fun h => ⟨rfl, h⟩, fun h => h.2⟩
          | none => exact ⟨fun ⟨v, h⟩ => (nomatch h), fun h => (nomatch h.2)⟩

/-- What a decoding and its probe have in common: the plan, and an old record of the right
    width. -/
theorem decodeCheck_ok_iff {payload : P} : decodeCheck p ti persisted payload = .ok () ↔
    ∃ plan values, hydrationPlan p.legacyFills ti persisted = .ok plan ∧
      p.decode payload = .ok values ∧ values.len = .ok persisted.length ∧
        ∀ e ∈ plan, runGlue persisted values e = .ok () := by
  rw [decodeCheck, except_bind_ok_iff]
  refine exists_congr fun plan => ?_
  rw [except_bind_ok_iff, ← exists_and_left]
  refine exists_congr fun values => and_congr_right fun _ => and_congr_right fun _ => ?_
  rw [except_bind_ok_iff]
  constructor
  · rintro ⟨width, hlen, h⟩
    by_cases hwidth : width = persisted.length
    · rw [hwidth] at hlen h
      exact ⟨hlen, (except_forM_ok_iff plan).mp (by simpa using h)⟩
    · simp [hwidth] at h
      cases h
  · rintro ⟨hlen, hglue⟩
    refine ⟨_, hlen, ?_⟩
    simpa using (except_forM_ok_iff plan).mpr hglue

theorem fillEntity_returns_iff {payload : P} :
    (∃ filled, fillEntity p ti persisted payload = .ok filled) ↔
      ∃ plan values, hydrationPlan p.legacyFills ti persisted = .ok plan ∧
        p.decode payload = .ok values ∧ values.len = .ok persisted.length ∧
          ∀ e ∈ plan, ∃ v, fillField persisted values e = .ok v := by
  constructor
  · rintro ⟨filled, h⟩
    rcases except_bind_ok_iff.mp h with ⟨plan, hplan, h⟩
    rcases except_bind_ok_iff.mp h with ⟨values, hdecode, h⟩
    rcases except_bind_ok_iff.mp h with ⟨width, hlen, h⟩
    by_cases hwidth : width = persisted.length
    · rw [hwidth] at hlen h
      exact ⟨plan, values, hplan, hdecode, hlen,
        except_mapM_returns_iff.mp ⟨filled, by simpa using h⟩⟩
    · simp [hwidth] at h
      cases h
  · rintro ⟨plan, values, hplan, hdecode, hlen, hfields⟩
    rcases except_mapM_returns_iff.mpr hfields with ⟨filled, hfilled⟩
    refine ⟨filled, except_bind_ok_iff.mpr ⟨plan, hplan,
      except_bind_ok_iff.mpr ⟨values, hdecode, except_bind_ok_iff.mpr ⟨_, hlen, ?_⟩⟩⟩⟩
    simpa using hfilled

/-- A record decodes if its probe passes and what the probe passes over is in order. -/
theorem fillEntity_ok_iff {payload : P} :
    (∃ filled, fillEntity p ti persisted payload = .ok filled) ↔
      decodeCheck p ti persisted payload = .ok () ∧ ∀ plan values,
        hydrationPlan p.legacyFills ti persisted = .ok plan → p.decode payload = .ok values →
          ∀ e ∈ plan, e.Fills values := by
  rw [fillEntity_returns_iff, decodeCheck_ok_iff]
  constructor
  · rintro ⟨plan, values, hplan, hdecode, hlen, hfields⟩
    refine ⟨⟨plan, values, hplan, hdecode, hlen, fun e he =>
      (fillField_ok_iff.mp (hfields e he)).1⟩, fun plan' values' hplan' hdecode' e he => ?_⟩
    cases hplan.symm.trans hplan'
    cases hdecode.symm.trans hdecode'
    exact (fillField_ok_iff.mp (hfields e he)).2
  · rintro ⟨⟨plan, values, hplan, hdecode, hlen, hglue⟩, hfills⟩
    exact ⟨plan, values, hplan, hdecode, hlen, fun e he =>
      fillField_ok_iff.mpr ⟨hglue e he, hfills plan values hplan hdecode e he⟩⟩

end Probes

section Scans

variable {V P : Type} {p : Process V P} {c : Contents P}

/-- What a record of a scan adds to the list. -/
def Contents.found (p : Process V P) (c : Contents P) (typename : String) (cid : ℤ)
    (row : ℤ × Except Raised P) : List (String × ℤ) :=
  match row.2 with
  | .error _ => []
  | .ok payload =>
    match c.probe p typename cid payload with
    | .ok _ => []
    | .error _ => [(typename, row.1)]

/-- A record of a scan is contained: it raises nothing `verify` does not catch. A
    wrong checksum is raised by the scan itself, so such a record is not. -/
def Contents.RowContained (p : Process V P) (c : Contents P) (typename : String) (cid : ℤ)
    (row : ℤ × Except Raised P) : Prop :=
  ∃ payload, row.2 = .ok payload ∧ ∀ ti err, p.types typename = some ti →
    decodeCheck p ti (c.persistedFields cid) payload = .error err → err.caught = true

/-- What a probe raises is a missing class or what the check raises. -/
theorem probe_error_iff {typename : String} {cid : ℤ} {payload : P} {err : Raised} :
    c.probe p typename cid payload = .error err ↔
      (p.types typename = none ∧ err = .schemaMismatch) ∨ ∃ ti, p.types typename = some ti ∧
        decodeCheck p ti (c.persistedFields cid) payload = .error err := by
  rw [Contents.probe]
  cases htype : p.types typename with
  | none =>
      constructor
      · intro h
        cases h
        exact Or.inl ⟨rfl, rfl⟩
      · rintro (⟨-, rfl⟩ | ⟨ti, h, -⟩)
        · rfl
        · cases h
  | some ti => simp

/-- A probe that passes is one of a live class. -/
theorem probe_ok_iff {typename : String} {cid : ℤ} {payload : P} :
    c.probe p typename cid payload = .ok () ↔ ∃ ti, p.types typename = some ti ∧
      decodeCheck p ti (c.persistedFields cid) payload = .ok () := by
  rw [Contents.probe]
  cases htype : p.types typename with
  | none => exact ⟨fun h => (nomatch h), fun ⟨_, h, _⟩ => (nomatch h)⟩
  | some ti => simp

/-- One record of a scan, once it has been read. -/
theorem verifyRecord_of_ok {typename : String} {cid : ℤ} {row : ℤ × Except Raised P} {payload : P}
    (hrow : row.2 = .ok payload) (acc : List (String × ℤ)) :
    c.verifyRecord p typename cid acc row = match c.probe p typename cid payload with
      | .ok _ => .ok acc
      | .error e => if e.caught then .ok (acc ++ [(typename, row.1)]) else .error e := by
  rw [Contents.verifyRecord, hrow]
  rfl

theorem verifyRecord_ok_iff (typename : String) (cid : ℤ) (row : ℤ × Except Raised P)
    (acc acc' : List (String × ℤ)) : c.verifyRecord p typename cid acc row = .ok acc' ↔
      c.RowContained p typename cid row ∧ acc' = acc ++ c.found p typename cid row := by
  -- A record that could not be read raises; one that was read is listed if its probe fails.
  cases hrow : row.2 with
  | error e =>
      refine iff_of_false (fun h => ?_) ?_
      · rw [Contents.verifyRecord, hrow] at h
        cases h
      · rintro ⟨⟨payload, h, -⟩, -⟩
        rw [hrow] at h
        cases h
  | ok payload =>
      have hcontained : c.RowContained p typename cid row ↔ ∀ ti err, p.types typename = some ti →
          decodeCheck p ti (c.persistedFields cid) payload = .error err → err.caught = true := by
        rw [Contents.RowContained, hrow]
        constructor
        · rintro ⟨_, h, hall⟩
          cases h
          exact hall
        · exact fun hall => ⟨payload, rfl, hall⟩
      rw [verifyRecord_of_ok hrow, hcontained, Contents.found, hrow]
      cases hprobe : c.probe p typename cid payload with
      | ok _ =>
          have hnone : ∀ ti err, p.types typename = some ti →
              decodeCheck p ti (c.persistedFields cid) payload = .error err → err.caught = true := by
            intro ti err hti herr
            rw [probe_error_iff.mpr (Or.inr ⟨ti, hti, herr⟩)] at hprobe
            cases hprobe
          simp only [hprobe, List.append_nil, Except.ok.injEq]
          exact ⟨fun h => ⟨hnone, h.symm⟩, fun h => h.2.symm⟩
      | error e =>
          have hcaught : (∀ ti err, p.types typename = some ti →
              decodeCheck p ti (c.persistedFields cid) payload = .error err → err.caught = true) ↔
              e.caught = true := by
            constructor
            · intro h
              rcases probe_error_iff.mp hprobe with ⟨-, rfl⟩ | ⟨ti, hti, herr⟩
              · rfl
              · exact h ti e hti herr
            · intro h ti err hti herr
              rw [probe_error_iff.mpr (Or.inr ⟨ti, hti, herr⟩)] at hprobe
              cases hprobe
              exact h
          rw [hcaught]
          by_cases h : e.caught = true
          · simp only [hprobe, h, if_true, Except.ok.injEq, true_and]
            exact eq_comm
          · simp [hprobe, h]

/-- When `verify` returns, and what. -/
theorem verify_ok_iff (failures : List (String × ℤ)) : c.verify p = .ok failures ↔
    c.Contained p ∧ failures = c.cidsByTypename.entries.flatMap fun e => e.2.flatMap fun cid =>
      (c.scanType cid).flatMap (c.found p e.1 cid) := by
  have hscan := fun (e : String × List ℤ) (cid : ℤ) =>
    except_foldlM_collect (c.scanType cid) fun row _ =>
      @verifyRecord_ok_iff V P p c e.1 cid row
  have hcids := fun (e : String × List ℤ) => except_foldlM_collect e.2 fun cid _ => hscan e cid
  have hall := except_foldlM_collect c.cidsByTypename.entries fun e _ => hcids e
  rw [Contents.verify, hall, List.nil_append]
  rfl

/-- What a scan meets are the records of the shape. -/
theorem Contents.mem_scanType_iff {cid oid : ℤ} {record : Except Raised P} :
    (oid, record) ∈ c.scanType cid ↔ c.objects.get? oid = some (cid, record) := by
  rw [Contents.scanType, List.mem_map, Dict.get?_eq_some_iff]
  constructor
  · rintro ⟨⟨o, c', r⟩, he, heq⟩
    rw [List.mem_insertionSort, List.mem_filter, decide_eq_true_eq] at he
    rcases he with ⟨hmem, rfl⟩
    cases heq
    exact hmem
  · intro hmem
    refine ⟨(oid, cid, record), ?_, rfl⟩
    rw [List.mem_insertionSort, List.mem_filter, decide_eq_true_eq]
    exact ⟨hmem, rfl⟩

/-- Of the records of contained contents those are found whose probe fails. -/
theorem mem_found_iff {typename : String} {cid : ℤ} {row : ℤ × Except Raised P}
    (hcontained : c.RowContained p typename cid row) (x : String × ℤ) :
    x ∈ c.found p typename cid row ↔ x = (typename, row.1) ∧
      ∀ payload, row.2 = .ok payload → c.probe p typename cid payload ≠ .ok () := by
  rcases hcontained with ⟨payload, hrow, -⟩
  rw [Contents.found, hrow]
  simp only [Except.ok.injEq, forall_eq']
  cases hprobe : c.probe p typename cid payload with
  | ok u => simp
  | error e => simp

/-- A record that decodes passes its probe. -/
theorem probe_of_decodes {typename : String} {cid : ℤ} {record : Except Raised P} {payload : P}
    (hrecord : record = .ok payload) (h : c.Decodes p typename cid record) :
    c.probe p typename cid payload = .ok () := by
  rcases h with ⟨payload', ti, values, hpayload, hti, hfill⟩
  cases hrecord.symm.trans hpayload
  exact probe_ok_iff.mpr ⟨ti, hti, (fillEntity_ok_iff.mp ⟨values, hfill⟩).1⟩

/-- On covered contents a record decodes if it passes its probe. -/
theorem Contents.Covered.decodes (hcovered : c.Covered p) {e : String × List ℤ}
    (he : e ∈ c.cidsByTypename.entries) {cid : ℤ} (hcid : cid ∈ e.2) {row : ℤ × Except Raised P}
    (hrow : row ∈ c.scanType cid) {payload : P} (hpayload : row.2 = .ok payload)
    (h : c.probe p e.1 cid payload = .ok ()) : c.Decodes p e.1 cid row.2 := by
  rcases probe_ok_iff.mp h with ⟨ti, hti, hcheck⟩
  rcases fillEntity_ok_iff.mpr ⟨hcheck, fun plan values hplan hdecode =>
    hcovered e he cid hcid row hrow payload ti plan values hpayload hti hplan hdecode hcheck⟩ with
    ⟨filled, hfilled⟩
  exact ⟨payload, ti, filled, hpayload, hti, hfilled⟩

end Scans

section Main

variable {V P : Type}

/-- Where `verify` is exact nothing is hidden from the probe: an OID it lists is that of the
    one record it has. -/
theorem covered_of_exact {p : Process V P} {c : Contents P} (hexact : c.VerifyIsExact p) :
    c.Covered p := by
  rcases hexact with ⟨failures, hok, hiff⟩
  rcases (verify_ok_iff failures).mp hok with ⟨hcontained, hfailures⟩
  intro e he cid hcid row hrow payload ti plan values hpayload hti hplan hdecode hcheck
  have hprobe : c.probe p e.1 cid payload = .ok () := probe_ok_iff.mpr ⟨ti, hti, hcheck⟩
  -- Were the record not to decode, it would be listed, but its probe passes.
  have hdecodes : c.Decodes p e.1 cid row.2 := by
    by_contra hnot
    have hlisted := (hiff e.1 row.1).mpr ⟨e.2, he, cid, hcid, row.2, hrow, hnot⟩
    rw [hfailures] at hlisted
    simp only [List.mem_flatMap] at hlisted
    rcases hlisted with ⟨e', he', cid', hcid', row', hrow', hfound⟩
    rcases (mem_found_iff (hcontained e' he' cid' hcid' row' hrow') _).mp hfound with
      ⟨heq, hfails⟩
    rcases Prod.mk.inj heq with ⟨hname, hoid⟩
    have hsame := Contents.mem_scanType_iff.mp hrow'
    rw [← hoid, Contents.mem_scanType_iff.mp hrow] at hsame
    rcases Prod.mk.inj (Option.some.inj hsame) with ⟨rfl, hrecord⟩
    exact hfails payload (hrecord ▸ hpayload) (hname ▸ hprobe)
  rcases hdecodes with ⟨payload', ti', filled, hpayload', hti', hfill⟩
  cases hpayload.symm.trans hpayload'
  cases hti.symm.trans hti'
  exact (fillEntity_ok_iff.mp ⟨filled, hfill⟩).2 plan values hplan hdecode

/-- `verify` returns and lists exactly the records that do not decode to their live class,
    exactly when no record raises in the scan, what the probes raise is of the five families
    it catches, and every column and factory behind a probe that passes is in order. -/
theorem verify_exact_iff (p : Process V P) (c : Contents P) :
    c.VerifyIsExact p ↔ c.Contained p ∧ c.Covered p := by
  constructor
  · intro hexact
    refine ⟨?_, covered_of_exact hexact⟩
    rcases hexact with ⟨failures, hok, -⟩
    exact ((verify_ok_iff failures).mp hok).1
  · rintro ⟨hcontained, hcovered⟩
    refine ⟨_, (verify_ok_iff _).mpr ⟨hcontained, rfl⟩, fun typename oid => ?_⟩
    simp only [List.mem_flatMap]
    constructor
    · rintro ⟨e, he, cid, hcid, row, hrow, hfound⟩
      have hrowc := hcontained e he cid hcid row hrow
      rcases (mem_found_iff hrowc _).mp hfound with ⟨heq, hfails⟩
      rcases hrowc with ⟨payload, hpayload, -⟩
      cases heq
      exact ⟨e.2, he, cid, hcid, row.2, hrow,
        fun hdec => hfails payload hpayload (probe_of_decodes hpayload hdec)⟩
    · rintro ⟨cids, he, cid, hcid, record, hrow, hnot⟩
      refine ⟨_, he, cid, hcid, _, hrow,
        (mem_found_iff (hcontained _ he cid hcid _ hrow) _).mpr ⟨rfl, fun payload hpayload h => ?_⟩⟩
      exact hnot (hcovered.decodes he hcid hrow hpayload h)

/-- A row with a wrong checksum, of a shape of some class, makes `verify` raise: the scan
    compares it, and nothing is caught there. -/
theorem verify_raises_on_damage {p : Process V Bytes} {cidsByTypename : Dict String (List ℤ)}
    {persistedFields : ℤ → List String} {db : Storage.Database} {oid : ℤ}
    {row : Storage.ObjectRow} (hrow : db.objects.get? oid = some row)
    (hdamaged : crc32 row.payload 0 ≠ row.crc) {e : String × List ℤ}
    (he : e ∈ cidsByTypename.entries) (hcid : row.cid ∈ e.2) (failures : List (String × ℤ)) :
    (Contents.onSqlite cidsByTypename persistedFields db).verify p ≠ .ok failures := by
  intro hok
  have hobject : (Contents.onSqlite cidsByTypename persistedFields db).objects.get? oid =
      some (row.cid, .error .corruptRecord) := by
    rw [Contents.onSqlite, Dict.get?_mapVal, hrow, Option.map_some, Storage.Database.readObject,
      Storage.Database.checkCrc, if_neg hdamaged]
    rfl
  have hscan := Contents.mem_scanType_iff.mpr hobject
  rcases ((verify_ok_iff failures).mp hok).1 e he row.cid hcid _ hscan with ⟨payload, h, -⟩
  cases h

/-- In memory no scan raises, so `verify` returns unless a probe raises what is not caught. -/
theorem contained_inMemory_iff {p : Process V Bytes} {cidsByTypename : Dict String (List ℤ)}
    {persistedFields : ℤ → List String} {m : Storage.MemoryBackend} :
    (Contents.inMemory cidsByTypename persistedFields m).Contained p ↔
      ∀ e ∈ cidsByTypename.entries, ∀ oid r, m.objects.get? oid = some r → r.cid ∈ e.2 →
        ∀ ti err, p.types e.1 = some ti →
          decodeCheck p ti (persistedFields r.cid) r.payload = .error err → err.caught = true := by
  have hobject : ∀ oid, (Contents.inMemory cidsByTypename persistedFields m).objects.get? oid =
      (m.objects.get? oid).map fun r => (r.cid, .ok r.payload) := by
    intro oid
    rw [Contents.inMemory, Dict.get?_mapVal]
  constructor
  · intro h e he oid r hr hcid ti err hti herr
    have hscan := Contents.mem_scanType_iff.mpr ((hobject oid).trans (by rw [hr]; rfl))
    rcases h e he r.cid hcid _ hscan with ⟨payload, hpayload, hcaught⟩
    cases hpayload
    exact hcaught ti err hti herr
  · rintro h e he cid hcid ⟨oid, record⟩ hrow
    have hget := (hobject oid).symm.trans (Contents.mem_scanType_iff.mp hrow)
    rcases Option.map_eq_some_iff.mp hget with ⟨r, hr, heq⟩
    cases heq
    exact ⟨r.payload, rfl, fun ti err => h e he oid r hr hcid ti err⟩

/-- A field that divides by a column of the old record. -/
def ratio : LiveClass Nat where
  specs := [{ name := "ratio", glue := some fun _ => .error (.other "ZeroDivisionError") }]
  names_nodup := by decide

/-- A process with that class. -/
def dividing : Process Nat (List Nat) where
  types := fun name => if name = "Sample" then some ratio else none
  decode := fun values => .ok (.list values)
  legacyFills := fun _ => none

/-- One record of the shape before that field. -/
def oneSample : Contents (List Nat) where
  cidsByTypename := Dict.ofList [("Sample", [1])]
  persistedFields := fun _ => ["divisor"]
  objects := Dict.ofList [(2 ^ 40, 1, .ok [0])]

/-- A function of an old record that divides by zero makes `verify` raise. -/
theorem verify_raises_on_division : ¬oneSample.VerifyIsExact dividing := by
  rintro ⟨failures, hok, -⟩
  have hraises : oneSample.verify dividing = .error (.other "ZeroDivisionError") := by decide
  rw [hraises] at hok
  cases hok

/-- A field with a default whose factory raises. -/
def limited : LiveClass Nat where
  specs := [{ name := "limit" }]
  defaults := fun _ => some (.error (.other "RuntimeError"))
  names_nodup := by decide

/-- A process with that class instead. -/
def limiting : Process Nat (List Nat) where
  types := fun name => if name = "Sample" then some limited else none
  decode := fun values => .ok (.list values)
  legacyFills := fun _ => none

-- The record is not listed, although it does not decode.
example : oneSample.verify limiting = .ok [] ∧
    fillEntity limiting limited ["divisor"] [0] = .error (.other "RuntimeError") := by decide

end Main

end Evolution

end DataCrystal
