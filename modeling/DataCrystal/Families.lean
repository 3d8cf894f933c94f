import DataCrystal.Lib.Run
import DataCrystal.Index.Orderly
import DataCrystal.Scanned
import DataCrystal.Watching

/-!
# Commits That Complete

The third phase of a commit runs after storage has taken the batch, so nothing
may go wrong in it. It folds the written entities into the indexes, and that
raises on a sorted field whose values do not compare. The first phase looks for
naive and aware datetimes and for decimal NaNs, and for nothing else: a field
that may hold a number or a string passes it with both.

Nor does it look for a float NaN, which compares with the other numbers unless
one of them is a `Decimal`.

What the first phase does not ask for is a kind per sorted field that all its
values keep to, over the life of the store: one family without NaN, or numbers
of which none is a `Decimal`. Under that condition every commit
that is captured and stored completes, and the indexes of every class can be
made at any time.

## Main definitions

* `IndexManager.Orderly`: The indexes of a session keep to their kinds.
* `Store.Tidy`: The indexes, the records and the shapes of a store.
* `Watched.KeepsKinds`: The condition on one event.

## Theorems

* `orderly_apply`: Folding a commit in.
* `prepares_tidy`, `ends_tidy`: Operations and commits keep a store tidy.
* `p3Finalize_completes`: The third phase returns.
* `durable_commit_completes`: Commits complete, and indexes can be made.
-/

namespace DataCrystal

open Store

variable {kin : String → String → Kin} {types : Types}

namespace IndexManager

/-- The indexes of a session, built or cached, keep to their kinds. -/
structure Orderly (kin : String → String → Kin) (types : Types) (m : IndexManager) : Prop where
  built : ∀ c ci, m.byCls.get? c = some ci → ci.Orderly (kin c) (types.info c)
  cached : ∀ blobs c blob, m.cacheBlobs = some blobs → blobs.get? c = some blob →
    blob.Orderly (kin c)

variable {m m' : IndexManager}

theorem Orderly.congr (h : m.Orderly kin types) (hcls : m'.byCls = m.byCls)
    (hblobs : m'.cacheBlobs = m.cacheBlobs) : m'.Orderly kin types :=
  ⟨fun c ci hci => h.built c ci (hcls ▸ hci),
    fun blobs c blob hb hblob => h.cached blobs c blob (hblobs ▸ hb) hblob⟩

theorem Orderly.setCls (h : m.Orderly kin types) {c : String} {ci : ClassIndexes}
    (hci : ci.Orderly (kin c) (types.info c)) : (m.setCls c ci).Orderly kin types := by
  refine ⟨fun d di hd => ?_, h.cached⟩
  rw [IndexManager.setCls, Dict.get?_set] at hd
  split at hd
  · rename_i hdc
    rw [hdc, ← Option.some.inj hd]
    exact hci
  · exact h.built d di hd

theorem Orderly.invalidateStaleBlob (h : m.Orderly kin types) (c : String) :
    (m.invalidateStaleBlob c).Orderly kin types := by
  refine ⟨h.built, fun blobs d blob hb hblob => ?_⟩
  rcases Option.map_eq_some_iff.mp hb with ⟨before, hbefore, rfl⟩
  rw [Dict.get?_erase] at hblob
  split at hblob
  · cases hblob
  · exact h.cached before d blob hbefore hblob

/-- The index of a class is at hand, is loaded, or is built. -/
theorem orderly_ensure (h : m.Orderly kin types) (b : Backend) (lineage : Lineage) (c : String)
    (hadm : Admits (types.info c) lineage b.scanType)
    (hrows : ∀ e ∈ scannedRows (types.info c) lineage b.scanType,
      Sortable (kin c) (types.info c) e.2) :
    ∃ ci m', ensure types b lineage c m = .ok ci m' ∧ m'.Orderly kin types := by
  have hloaded : ∃ r, m.cached types c = .ok r ∧
      ∀ ci, r = some ci → ci.Orderly (kin c) (types.info c) := by
    unfold IndexManager.cached
    cases hblob : m.cacheBlobs.bind fun blobs => blobs.get? c with
    | none => exact ⟨none, rfl, fun ci heq => nomatch heq⟩
    | some blob =>
        rcases Option.bind_eq_some_iff.mp hblob with ⟨blobs, hblobs, hget⟩
        exact ClassIndexes.orderly_load (types.info c) (h.cached blobs c blob hblobs hget)
  rcases hloaded with ⟨r, hrun, hr⟩
  unfold ensure
  rw [bind_run_ok (get_run m)]
  cases hcls : m.byCls.get? c with
  | some ci => exact ⟨ci, m, rfl, h⟩
  | none =>
      dsimp only
      rw [bind_run_ok (ofExcept_run_ok hrun m)]
      cases r with
      | some ci => exact ⟨ci, m.setCls c ci, rfl, h.setCls (hr ci rfl)⟩
      | none =>
          rcases ClassIndexes.orderly_build lineage b.scanType hadm hrows with
            ⟨ci, hbuild, hci⟩
          dsimp only
          rw [bind_run_ok (ofExcept_run_ok hbuild m)]
          exact ⟨ci, m.setCls c ci, rfl, h.setCls hci⟩

theorem ensures_orderly {b : Backend} {lineage : String → Lineage}
    (hstep : Ensures types b lineage m m') (h : m.Orderly kin types)
    (hadm : ∀ c, Admits (types.info c) (lineage c) b.scanType)
    (hrows : ∀ c, ∀ e ∈ scannedRows (types.info c) (lineage c) b.scanType,
      Sortable (kin c) (types.info c) e.2) : m'.Orderly kin types := by
  -- The one step of `ensure` there is from here.
  cases hstep with
  | loaded c ci hnone hload =>
      refine h.setCls ?_
      unfold IndexManager.cached at hload
      cases hblob : m.cacheBlobs.bind fun blobs => blobs.get? c with
      | none => rw [hblob] at hload; cases hload
      | some blob =>
          rw [hblob] at hload
          rcases Option.bind_eq_some_iff.mp hblob with ⟨blobs, hblobs, hget⟩
          rcases ClassIndexes.orderly_load (types.info c)
            (h.cached blobs c blob hblobs hget) with ⟨r, hrun, hr⟩
          exact hr ci (Except.ok.inj (hrun.symm.trans hload))
  | built c ci hnone hload hbuild =>
      rcases ClassIndexes.orderly_build (lineage c) b.scanType (hadm c) (hrows c)
        with ⟨ci', hbuild', hci⟩
      rw [Except.ok.inj (hbuild.symm.trans hbuild')]
      exact h.setCls hci

/-- An entry whose values keep to the kinds of its class. -/
def EntrySortable (kin : String → String → Kin) (types : Types) (e : IndexEntry) : Prop :=
  ∃ row : String → Val LiveRef, e.2.2 = ClassIndexes.entryOf (types.info e.2.1) row ∧
    Sortable (kin e.2.1) (types.info e.2.1) row

theorem orderly_applyEntry {e : IndexEntry} (he : EntrySortable kin types e)
    (h : m.Orderly kin types) : ∃ m', applyEntry e m = .ok () m' ∧ m'.Orderly kin types := by
  rcases he with ⟨row, hvalues, hrow⟩
  unfold applyEntry
  rw [bind_run_ok (get_run m)]
  cases hcls : m.byCls.get? e.2.1 with
  | none => exact ⟨_, rfl, h.invalidateStaleBlob e.2.1⟩
  | some ci =>
      rcases ClassIndexes.orderly_insert (h.built e.2.1 ci hcls) e.1
        (ClassIndexes.mem_relevant (types.info e.2.1)) row hrow with
        ⟨ci', hrun, hci⟩
      refine ⟨m.setCls e.2.1 ci', ?_, h.setCls hci⟩
      dsimp only
      unfold onClass zoom
      rw [hvalues, ClassIndexes.entryOf, hrun]

/-- Folding a commit into orderly indexes returns. -/
theorem orderly_apply {entries : List IndexEntry}
    (he : ∀ e ∈ entries, EntrySortable kin types e) (h : m.Orderly kin types) :
    ∃ m', apply entries m = .ok () m' ∧ m'.Orderly kin types := by
  have h₀ : (m.invalidateReverseBlob (!entries.isEmpty)).Orderly kin types := by
    unfold invalidateReverseBlob
    split
    · exact h.congr rfl rfl
    · exact h
  unfold apply
  rw [bind_run_ok (modify_run _ m)]
  exact forM_run_ok (fun e hmem m hm => orderly_applyEntry (he e hmem) hm) h₀

theorem orderly_applyDeletes (deletes : List (Nat × String)) : ∀ m : IndexManager,
    m.Orderly kin types → (m.applyDeletes deletes).Orderly kin types := by
  induction deletes with
  | nil => exact fun m h => h
  | cons d deletes ih =>
      intro m h
      refine ih (m.applyDelete d) ?_
      unfold applyDelete
      cases hcls : m.byCls.get? d.2 with
      | none => exact h.invalidateStaleBlob d.2
      | some ci => exact h.setCls (ClassIndexes.orderly_remove (h.built d.2 ci hcls) d.1)

theorem withReverseRefs_frame (m : IndexManager) :
    m.withReverseRefs.byCls = m.byCls ∧ m.withReverseRefs.cacheBlobs = m.cacheBlobs := by
  unfold withReverseRefs
  split <;> exact ⟨rfl, rfl⟩

/-- The reverse index is kept apart from the others. -/
theorem applyReverse_frame (entries : List RefEntry) (m : IndexManager) :
    (m.applyReverse entries).byCls = m.byCls ∧
      (m.applyReverse entries).cacheBlobs = m.cacheBlobs := by
  unfold applyReverse
  cases m.reverse with
  | none => exact ⟨rfl, rfl⟩
  | some rev => exact m.withReverseRefs_frame

theorem invalidateReverseBlob_frame (changed : Bool) (m : IndexManager) :
    (m.invalidateReverseBlob changed).byCls = m.byCls ∧
      (m.invalidateReverseBlob changed).cacheBlobs = m.cacheBlobs := by
  unfold invalidateReverseBlob
  split <;> exact ⟨rfl, rfl⟩

theorem removeReverse_frame (deleted : List Nat) (m : IndexManager) :
    (m.removeReverse deleted).byCls = m.byCls ∧
      (m.removeReverse deleted).cacheBlobs = m.cacheBlobs := by
  have hbase := m.invalidateReverseBlob_frame (!deleted.isEmpty)
  unfold removeReverse
  dsimp only
  cases (m.invalidateReverseBlob (!deleted.isEmpty)).reverse with
  | none => exact hbase
  | some rev =>
      have hrefs := (m.invalidateReverseBlob (!deleted.isEmpty)).withReverseRefs_frame
      exact ⟨hrefs.1.trans hbase.1, hrefs.2.trans hbase.2⟩

theorem orderly_foldRest (h : m.Orderly kin types) (cap : Capture) :
    (foldRest cap m).Orderly kin types := by
  have hrev := m.applyReverse_frame cap.refEntries
  have hdel := orderly_applyDeletes (cap.deletes.map fun d => (d.1, d.2.1)) _
    (h.congr hrev.1 hrev.2)
  unfold foldRest
  have hrem := removeReverse_frame (cap.deletes.map Prod.fst)
    ((m.applyReverse cap.refEntries).applyDeletes (cap.deletes.map fun d => (d.1, d.2.1)))
  exact hdel.congr hrem.1 hrem.2

end IndexManager

namespace Store

variable {p : Principal} {kind : Nat → String} {s t : Store}

/-- The indexes, the records and the shapes of a store keep to the kinds. -/
structure Tidy (kin : String → String → Kin) (types : Types) (s : Store) : Prop where
  index : s.index.Orderly kin types
  rows : ∀ c rec, s.backend.RecordOf c rec →
    Sortable (kin c) (types.info c) (s.backend.rowOf (types.info c) rec)
  shapes : ∀ c, Admits (types.info c) (s.lineageFor c) s.backend.scanType

theorem Tidy.congr (h : Tidy kin types s) (hi : t.index = s.index) (hb : t.backend = s.backend)
    (ht : t.typeRows = s.typeRows) : Tidy kin types t := by
  have hlineage : t.lineageFor = s.lineageFor := by
    funext c
    unfold lineageFor
    rw [ht]
  refine ⟨hi ▸ h.index, ?_, ?_⟩
  · rw [hb]
    exact h.rows
  · rw [hb, hlineage]
    exact h.shapes

theorem Tidy.withIndex (h : Tidy kin types s) {m : IndexManager} (hm : m.Orderly kin types) :
    Tidy kin types { s with index := m } := ⟨hm, h.rows, h.shapes⟩

theorem Tidy.scanned (h : Tidy kin types s) (hs : StorageOk kind s) (c : String) :
    ∀ e ∈ scannedRows (types.info c) (s.lineageFor c) s.backend.scanType,
      Sortable (kin c) (types.info c) e.2 := by
  intro e he
  rcases (mem_scannedRows hs e).mp he with ⟨rec, hrec, rfl⟩
  exact h.rows c rec hrec

/-- The indexes of any class can be made at any time. -/
theorem Tidy.ensureIndex_answers (h : Tidy kin types s) (hs : StorageOk kind s) (c : String) :
    ∃ ci t, ensureIndex types c s = .ok ci t := by
  rcases IndexManager.orderly_ensure h.index s.backend (s.lineageFor c) c (h.shapes c)
    (h.scanned hs c) with ⟨ci, m, hrun, -⟩
  refine ⟨ci, { s with index := m }, ?_⟩
  unfold ensureIndex
  rw [bind_run_ok (get_run s)]
  exact zoom_ok_iff.mpr ⟨m, hrun, rfl⟩

/-- The shape a class has now lacks none of its fields. -/
theorem schemaEvolutionFill_fieldNames (ti : TypeInfo) :
    schemaEvolutionFill ti ti.fieldNames = .ok none := by
  have hnone : (ti.maintainedFields.filter fun n => !ti.fieldNames.contains n) = [] := by
    rw [List.filter_eq_nil_iff]
    intro f hf
    simp [mem_fieldNames_of_maintained hf]
  unfold schemaEvolutionFill
  rw [hnone]
  rfl

theorem addShape_tidy (h : Tidy kin types s) (c : String) :
    Tidy kin types (s.addShape c (types.info c).fieldNames) := by
  refine ⟨h.index, h.rows, fun d => (h.shapes d).imp_right fun hd shape hshape => ?_⟩
  rcases List.mem_map.mp hshape with ⟨row, hrow, rfl⟩
  rw [List.mem_filter, decide_eq_true_eq] at hrow
  rcases List.mem_append.mp hrow.1 with hold | hnew
  · refine hd (row.1, row.2.2) (List.mem_map.mpr ⟨row, ?_, rfl⟩)
    rw [List.mem_filter, decide_eq_true_eq]
    exact ⟨hold, hrow.2⟩
  · rw [List.mem_singleton] at hnew
    rw [hnew] at hrow ⊢
    rw [← hrow.2]
    exact ⟨none, schemaEvolutionFill_fieldNames _, Or.inl rfl⟩

/-- An operation changes neither the records nor the shapes, and of the indexes
    it can only make one. -/
theorem prepares_tidy (hstep : Prepares types p s t) (hc : Coherent kind s)
    (h : Tidy kin types s) : Tidy kin types t := by
  rcases prepares_kinds hstep with hsame | ⟨m, hm, rfl⟩ | rfl | ⟨c, rfl⟩
  · exact h.congr hsame.index hsame.backend hsame.typeRows
  · exact h.withIndex (IndexManager.ensures_orderly hm h.index h.shapes (h.scanned hc.storage))
  · refine h.withIndex ?_
    unfold IndexManager.ensureReverse
    split
    · exact h.index
    · split <;> exact h.index.congr rfl rfl
  · exact addShape_tidy h c

/-- Operations keep a coherent store tidy. -/
theorem prepared_tidy (hrun : Relation.ReflTransGen (Prepares types p) s t) (hc : Coherent kind s)
    (h : Tidy kin types s) : Tidy kin types t := by
  have hboth : Coherent kind t ∧ Tidy kin types t :=
    reflTransGen_invariant (I := fun u => Coherent kind u ∧ Tidy kin types u)
      (fun _ _ hst hs => ⟨prepares_coherent hst hs.1, prepares_tidy hst hs.1 hs.2⟩) hrun ⟨hc, h⟩
  exact hboth.2

/-- The values of the buffered entities keep to the kinds of their classes. This is
    asked behind discovery, when everything is buffered that the commit writes. -/
def BuffersSortable (kin : String → String → Kin) (types : Types) (s : Store) : Prop :=
  ∀ e ∈ s.pending.entries, Sortable (kin (s.heap.get e.2).cls) (s.info types e.2)
    (s.heap.get e.2).field

instance : Decidable (BuffersSortable kin types s) :=
  inferInstanceAs (Decidable (∀ e ∈ s.pending.entries, _))

variable {s₁ : Store} {m : IndexManager} {out : EncodedBatch}

/-- What is captured is what discovery left in the buffers. -/
theorem Captured.buffers (hc : Captured types p s s₁ m out t)
    (h : BuffersSortable kin types s₁) : BuffersSortable kin types t := by
  rcases hc.frame with ⟨a, rows, rfl, -⟩
  exact h

theorem BuffersSortable.entries (h : BuffersSortable kin types t) :
    ∀ e ∈ t.indexEntries types, IndexManager.EntrySortable kin types e := by
  intro e he
  rcases List.mem_filterMap.mp he with ⟨⟨k, o⟩, hko, heq⟩
  dsimp only at heq
  split at heq
  · cases heq
  · rw [← Option.some.inj heq]
    exact ⟨(t.heap.get o).field, rfl, h (k, o) hko⟩

/-- The records of a commit keep to the kinds its entities kept to. -/
theorem stored_rows (hc : Coherent kind t) (hb : BatchOk types t t.pending.entries t out)
    (h : Tidy kin types t) (hbuf : BuffersSortable kin types t) {c : String} {rec : StoredRecord}
    (hrec : (t.backend.apply (t.buildBatch out)).RecordOf c rec) :
    Sortable (kin c) (types.info c)
      ((t.backend.apply (t.buildBatch out)).rowOf (types.info c) rec) := by
  rcases stored_recordOf hc hb hrec with ⟨hold, -, -, hrow⟩ | ⟨o, ho, rfl, henc, hnames⟩
  · rw [hrow]
    exact h.rows c rec hold
  · have hfields := hbuf (rec.oid, o) ho
    rw [Backend.rowOf, hnames]
    refine ⟨fun f hf => ?_, fun f hf k hk => ?_⟩
    · rw [encodedAs_indexKeys henc hf, encodedAs_rowKeys henc hf]
      exact hfields.keyed f hf
    · have hm : f ∈ (types.info (t.heap.get o).cls).maintainedFields :=
        (TypeInfo.mem_maintainedFields _ f).mpr (Or.inl (TypeInfo.eqIndexFields_of_sorted _ hf))
      rw [encodedAs_rowKeys henc hm] at hk
      -- The field holds a scalar, and its record what object it is.
      have hkeyed : ((t.heap.get o).field f).indexKeys
          ((types.info (t.heap.get o).cls).listFields.contains f) = _ := hfields.keyed f hm
      rw [show (types.info (t.heap.get o).cls).listFields.contains f = false by
        simpa using TypeInfo.not_list_of_sorted _ hf] at hkeyed
      rw [encode_decimalAt (encodedAs_maintained henc hm) hkeyed]
      exact hfields.ordered f hf k hk

/-- A commit writes in the shapes the classes have now, so a shape without
    records stays without. -/
theorem stored_shapes (hc : Coherent kind t) (hb : BatchOk types t t.pending.entries t out)
    (h : Tidy kin types t) (c : String) :
    Admits (types.info c) (t.lineageFor c) (t.backend.apply (t.buildBatch out)).scanType := by
  refine (h.shapes c).imp_right fun hshapes shape hshape => ?_
  rcases hshapes shape hshape with ⟨r, hfill, hr⟩
  by_cases hscan : (t.backend.apply (t.buildBatch out)).scanType shape.1 = []
  · exact ⟨r, hfill, Or.inr hscan⟩
  refine ⟨r, hfill, Or.inl ?_⟩
  rcases stored_storage hc hb with ⟨u, hu, hbackend, hrows⟩
  rcases List.exists_mem_of_ne_nil _ hscan with ⟨rec, hrec⟩
  rw [← hbackend] at hrec
  rcases (Backend.mem_scanType hu.filed _ _).mp hrec with ⟨hget, hcid⟩
  rcases List.mem_map.mp hshape with ⟨row, hrow, rfl⟩
  rw [List.mem_filter, decide_eq_true_eq] at hrow
  -- The shape scanned is the one the record is filed under.
  have hsame := hu.rowsUnique _ (hu.rowsKnown _ (hu.row hget)) row (hrows ▸ hrow.1) hcid
  have hcls : classed kind t rec.oid = c := by
    rw [← hrow.2, ← hsame]
  have hof : u.backend.RecordOf c rec := (hu.recordOf_iff rec).mpr ⟨hget, hcls⟩
  have hnames : u.backend.fieldsOf rec.cid = row.2.2 := by
    rw [← hsame]
  rw [hbackend] at hof hnames
  rcases stored_recordOf hc hb hof with ⟨hold, -⟩ | ⟨o, -, -, -, hfields⟩
  · rcases hr with hr | hempty
    · exact hr
    · have hmem := (Backend.mem_scanType hc.storage.filed row.1 rec).mpr ⟨hold.1, hcid⟩
      rw [hempty] at hmem
      exact absurd hmem List.not_mem_nil
  · have hnow := schemaEvolutionFill_fieldNames (types.info c)
    rw [← hfields, hnames, hfill] at hnow
    exact Except.ok.inj hnow

/-- The third phase returns, and leaves the store tidy. -/
theorem p3Finalize_completes (hc : Coherent kind t)
    (hb : BatchOk types t t.pending.entries t out) (h : Tidy kin types t)
    (hbuf : BuffersSortable kin types t) (s₁ : Store) :
    ∃ u, p3Finalize (captured types s₁ t out)
        (applyBatch (captured types s₁ t out).batch (t.settle types)) = .ok t.alloc.nextTid u ∧
      u.lastTid = t.alloc.nextTid ∧ u.backend = t.backend.apply (t.buildBatch out) ∧
      Tidy kin types u := by
  -- What is decided before P3: the index, the storage and the type rows it starts from.
  rcases foldl_flipOne types t.pending.entries t with ⟨hp, r, hflip, -⟩
  have hindex : (applyBatch (captured types s₁ t out).batch (t.settle types)).index = t.index := by
    simp only [applyBatch, settle, hflip]
  have hbackend : (applyBatch (captured types s₁ t out).batch (t.settle types)).backend =
      t.backend.apply (t.buildBatch out) := by
    simp only [applyBatch, settle, hflip]
    rfl
  have htypes : (applyBatch (captured types s₁ t out).batch (t.settle types)).typeRows =
      t.typeRows := by
    simp only [applyBatch, settle, hflip]
  -- The one place P3 could raise is where the index entries go in, and sortable keys do.
  rcases IndexManager.orderly_apply hbuf.entries (hindex ▸ h.index) with ⟨m', hrun, hm'⟩
  rcases finishCommit_frame (captured types s₁ t out)
    { applyBatch (captured types s₁ t out).batch (t.settle types) with index := m' } with
    ⟨hp', r', hfinish⟩
  have hub : (finishCommit (captured types s₁ t out)
      { applyBatch (captured types s₁ t out).batch (t.settle types) with index := m' }).backend =
      t.backend.apply (t.buildBatch out) := by
    rw [hfinish]
    exact hbackend
  have hlineage : ∀ c, (finishCommit (captured types s₁ t out)
      { applyBatch (captured types s₁ t out).batch (t.settle types) with index := m' }).lineageFor
        c = t.lineageFor c := by
    intro c
    rw [hfinish]
    unfold lineageFor
    rw [htypes]
  -- The rest of P3 returns, and the store it leaves is tidy again.
  refine ⟨finishCommit (captured types s₁ t out)
    { applyBatch (captured types s₁ t out).batch (t.settle types) with index := m' }, ?_, ?_, hub,
    ?_, fun c rec hrec => ?_, fun c => ?_⟩
  · have hfold : onIndex (IndexManager.apply (captured types s₁ t out).indexEntries)
        (applyBatch (captured types s₁ t out).batch (t.settle types)) =
        .ok () { applyBatch (captured types s₁ t out).batch (t.settle types) with index := m' } :=
      zoom_ok_iff.mpr ⟨m', hrun, rfl⟩
    unfold p3Finalize
    rw [bind_run_ok hfold, bind_run_ok (modify_run _ _)]
    rfl
  · rw [hfinish]
    rfl
  · rw [hfinish]
    exact IndexManager.orderly_foldRest hm' _
  · rw [hub] at hrec ⊢
    exact stored_rows hc hb h hbuf hrec
  · rw [hlineage, hub]
    exact stored_shapes hc hb h c

/-- However a commit ends, it leaves a tidy store tidy, if what discovery left
    in the buffers keeps to the kinds. -/
theorem ends_tidy {fault : Bool} {u : Store} (hends : Ends types p fault s u)
    (hc : Coherent kind s) (h : Tidy kin types s)
    (hbuf : ∀ s₁, discoverNewGraphs types p s = .ok () s₁ → BuffersSortable kin types s₁) :
    Tidy kin types u := by
  rcases hends with hprep | ⟨s₁, m, out, t, hcap, rfl⟩
  · exact prepared_tidy hprep hc h
  · have ht := prepared_tidy hcap.prepares hc h
    have htc := hcap.coherent hc
    cases fault with
    | true =>
        rcases rollback_spec types (s₁.refEntries types) out htc with ⟨_, _, _, _, _, heq, -⟩
        rw [if_pos rfl, captured, heq]
        exact ht.congr rfl rfl rfl
    | false =>
        rw [if_neg (by decide)]
        rcases p3Finalize_completes htc (hcap.batchOk hc) ht
          (hcap.buffers (hbuf s₁ hcap.discovered)) s₁ with ⟨u, hrun, -, -, hu⟩
        rw [hrun]
        exact hu

theorem discard_tidy (hc : Coherent kind s) (h : Tidy kin types s) : Tidy kin types s.discard := by
  have hb := backend_discard s
  rcases foldl_detach (s.new.entries ++ s.cancelledNew.entries) s with ⟨hp, l, heq⟩
  refine ⟨⟨fun c ci hci => ?_, fun blobs c blob hblobs => ?_⟩, ?_, fun c => ?_⟩
  · cases hci
  · cases hblobs
  · rw [hb]
    exact h.rows
  · rw [hb]
    refine (h.shapes c).imp_right fun hshapes shape hshape => hshapes shape ?_
    -- A reload forgets the shapes that are not durable.
    rcases List.mem_map.mp hshape with ⟨row, hrow, rfl⟩
    rw [List.mem_filter] at hrow
    have hrows : s.discard.typeRows = s.backend.types := by
      rw [← hb]
      rfl
    refine List.mem_map.mpr ⟨row, List.mem_filter.mpr ⟨?_, hrow.2⟩, rfl⟩
    exact hc.storage.rowsKnown row (hrows ▸ hrow.1)

end Store

/-- The classes of a process can read a store, and its records keep to the families.
    This is what an open asks for: it is about storage and the declared classes
    only, before any index is made. -/
structure Backend.Readable (kin : String → String → Kin) (types : Types) (b : Backend) :
    Prop where
  rows : ∀ c rec, b.RecordOf c rec →
    Sortable (kin c) (types.info c) (b.rowOf (types.info c) rec)
  shapes : ∀ c, Admits (types.info c) (b.lineageOf c) b.scanType

namespace World

variable {kind : Nat → String} {w : World}

/-- A tidy store next to a sidecar whose blobs keep to the kinds. -/
structure Tidy (kin : String → String → Kin) (w : World) : Prop where
  store : w.store.Tidy kin w.types
  sidecar : ∀ sc c blob, w.sidecar = some sc → sc.classes.get? c = some blob →
    blob.Orderly (kin c)

theorem reopen_tidy {sidecar : Option Sidecar} {b : Backend} (hb : b.Readable kin types)
    (hside : ∀ sc c blob, sidecar = some sc → sc.classes.get? c = some blob →
      blob.Orderly (kin c)) : (reopen types sidecar b).Tidy kin := by
  refine ⟨⟨⟨fun c ci hci => ?_, fun blobs c blob hblobs hblob => ?_⟩, hb.rows, hb.shapes⟩, hside⟩
  · cases hci
  · rcases Option.map_eq_some_iff.mp hblobs with ⟨sc, hsc, rfl⟩
    exact hside sc c blob (Option.filter_eq_some_iff.mp hsc).1 hblob

theorem closed_orderly (h : w.Tidy kin) : ∀ sc c blob, w.closed = some sc →
    sc.classes.get? c = some blob → blob.Orderly (kin c) := by
  intro sc c blob hsc hblob
  rw [closed] at hsc
  split at hsc
  · exact h.sidecar sc c blob hsc hblob
  · rw [← Option.some.inj hsc, IndexManager.dumpForCache, Dict.get?_mapVal,
      Option.map_eq_some_iff] at hblob
    rcases hblob with ⟨ci, hci, rfl⟩
    exact ClassIndexes.orderly_dump (h.store.index.built c ci hci)

end World

namespace Watched

/-- The values a commit writes keep to the kinds of their fields, and a new
    session can read what there is. -/
def KeepsKinds (kin : String → String → Kin) (w : Watched) : Event → Prop
  | .act p (.commit _) => ∀ s₁, discoverNewGraphs w.world.types p w.world.store = .ok () s₁ →
      s₁.BuffersSortable kin w.world.types
  | .act _ _ => True
  | .closeAndOpen types => w.world.store.backend.Readable kin types
  | .crashAndOpen types => w.world.store.backend.Readable kin types

instance (kin : String → String → Kin) (w : Watched) (p : Principal) (fault : Bool) :
    Decidable (KeepsKinds kin w (.act p (.commit fault))) :=
  match h : discoverNewGraphs w.world.types p w.world.store with
  | .ok _ s₁ =>
    decidable_of_iff (s₁.BuffersSortable kin w.world.types)
      ⟨fun hb s hs => by
        rw [h] at hs
        cases hs
        exact hb, fun hk => hk s₁ h⟩
  | .error _ _ => isTrue fun s hs => by
      rw [h] at hs
      cases hs

theorem step_tidy {kind : Nat → String} {w : Watched} {e : Event} (hc : w.world.Coherent kind)
    (h : w.world.Tidy kin) (hcond : KeepsKinds kin w e) : (w.step e).world.Tidy kin := by
  rcases step_world w e with ⟨p, fault, rfl, u, hends, hworld⟩ | ⟨hno, hworld⟩
  · rw [hworld]
    exact ⟨ends_tidy hends hc.store h.store hcond, h.sidecar⟩
  · rw [hworld]
    cases e with
    | closeAndOpen types => exact World.reopen_tidy hcond (World.closed_orderly h)
    | crashAndOpen types => exact World.reopen_tidy hcond h.sidecar
    | act p op =>
        refine ⟨?_, h.sidecar⟩
        rcases op.kinds with hop | ⟨fault, rfl⟩ | rfl
        · have hmoves := moves_op w.world.types p op hop w.world.store
          exact prepared_tidy (Relation.ReflTransGen.mono
            (fun _ _ he => (Or.inl he : Prepares w.world.types p _ _)) _ _ hmoves) hc.store h.store
        · exact absurd rfl (hno p fault)
        · exact discard_tidy hc.store h.store

/-- A new directory holds nothing that could fail to compare. -/
theorem begin_tidy (kin : String → String → Kin) (types : Types) (attached : Bool) :
    (begin types attached).world.Tidy kin := by
  have hempty : Backend.Readable kin types {} := by
    refine ⟨fun c rec hrec => ?_, fun c => Or.inr fun shape hshape => ?_⟩
    · exact nomatch hrec.1
    · exact absurd hshape List.not_mem_nil
  have hopen : (World.reopen types none {}).Tidy kin :=
    World.reopen_tidy hempty fun sc c blob hsc => nomatch hsc
  exact hopen

/-- The worlds of a run that keeps to the kinds. -/
theorem run_tidy (types : Types) (attached : Bool) (events : List Event)
    (hrun : EachStep step (KeepsKinds kin) (begin types attached) events) :
    ((begin types attached).run events).world.Tidy kin := by
  induction events using List.reverseRecOn with
  | nil => exact begin_tidy kin types attached
  | append_singleton events e ih =>
      rw [eachStep_append] at hrun
      rcases run_coherent types attached events with ⟨kind, hc⟩
      rw [run, List.foldl_append]
      exact step_tidy hc (ih hrun.1) hrun.2.1

/-- In a run that keeps to the kinds the indexes of any class can be made at
    any time, and a commit that is captured and stored completes, watched or
    not. -/
theorem durable_commit_completes (kin : String → String → Kin) (types : Types) (attached : Bool)
    (events : List Event)
    (hrun : EachStep step (KeepsKinds kin) (begin types attached) events) (p : Principal) :
    let w := (begin types attached).run events
    let s := w.world.store
    (∀ c, ∃ ci t, ensureIndex w.world.types c s = .ok ci t) ∧
      (KeepsKinds kin w (.act p (.commit false)) →
        (∀ cap t, p1Capture w.world.types p s = .ok (some cap) t →
          ∃ u, Store.commit w.world.types p false s = .ok (some cap.tid) u ∧
            u.lastTid = cap.tid ∧ u.backend = s.backend.apply cap.batch) ∧
        ∀ cap d t, p1Watched w.world.types p s = .ok (some (cap, d)) t →
          ∃ u, commitWatched w.world.types p false s = .ok (some (cap.tid, d)) u ∧
            u.lastTid = cap.tid ∧ u.backend = s.backend.apply cap.batch ∧
            (w.attached = true → (w.step (.act p (.commit false))).stream = w.stream ++ [d])) := by
  intro w s
  rcases run_coherent types attached events with ⟨kind, hc⟩
  have htidy : w.world.Tidy kin := run_tidy types attached events hrun
  -- Without a consumer and with one, the capture is followed by the same P3.
  refine ⟨fun c => htidy.store.ensureIndex_answers hc.store.storage c, fun hcond => ⟨?_, ?_⟩⟩
  · intro cap t hp1
    rcases p1Capture_ok hp1 with ⟨hnone, -⟩ | ⟨s₁, m, out, t, hcap, hsome, rfl⟩
    · cases hnone
    · have hbackend : t.backend = s.backend := backend_of_prepares hcap.prepares
      rw [Option.some.inj hsome] at hp1 ⊢
      rcases p3Finalize_completes (hcap.coherent hc.store) (hcap.batchOk hc.store)
        (prepared_tidy hcap.prepares hc.store htidy.store)
        (hcap.buffers (hcond s₁ hcap.discovered)) s₁ with ⟨u, hp3, htid, hub, -⟩
      refine ⟨u, ?_, htid, hbackend ▸ hub⟩
      unfold Store.commit
      rw [bind_run_ok hp1]
      dsimp only
      rw [if_neg (by decide), bind_run_ok (modify_run _ _)]
      exact bind_run_ok hp3
  · intro cap d t hp1
    rcases p1Watched_ok hp1 with ⟨hnone, -⟩ | ⟨s₁, m, out, t, priors, hcap, hpriors, hsome, rfl⟩
    · cases hnone
    · have hbackend : t.backend = s.backend := backend_of_prepares hcap.prepares
      cases hsome
      rcases p3Finalize_completes (hcap.coherent hc.store) (hcap.batchOk hc.store)
        (prepared_tidy hcap.prepares hc.store htidy.store)
        (hcap.buffers (hcond s₁ hcap.discovered)) s₁ with ⟨u, hp3, htid, hub, -⟩
      have hcommit : commitWatched w.world.types p false s =
          .ok (some (t.alloc.nextTid, t.deltaOf p out priors)) u := by
        unfold commitWatched
        rw [bind_run_ok hp1]
        dsimp only
        rw [if_neg (by decide), bind_run_ok (modify_run _ _)]
        exact bind_run_ok hp3
      refine ⟨u, hcommit, htid, hbackend ▸ hub, fun hatt => ?_⟩
      change (w.commit p false).stream = _
      unfold commit
      rw [if_pos hatt]
      have hmatch : commitWatched w.world.types p false w.world.store =
          .ok (some (t.alloc.nextTid, t.deltaOf p out priors)) u := hcommit
      rw [hmatch]
      dsimp only
      unfold deliver
      split <;> rfl

/-- A process with one class, whose one field is sorted and may hold a number
    or a string. -/
def partTypes : Types := fun c =>
  if c = "part" then
    some { dataSpecs := [{ name := "code", sorted := true, entityRef := false }] }
  else none

def partOwner : Principal := { uid := 5, memberships := Dict.empty }

/-- A part with a numeric code is committed, and the class is queried. -/
def numberedPart : List Event :=
  [.act partOwner (.construct "part" [("code", .int 1)]), .act partOwner (.store 0),
    .act partOwner (.commit false), .act partOwner (.query "part")]

/-- Another part is stored next to it. -/
def secondPart (code : Val LiveRef) : List Event :=
  numberedPart ++ [.act partOwner (.construct "part" [("code", code)]), .act partOwner (.store 1)]

/-- With a numeric code the second commit completes. -/
theorem durable_commit_completes_on_parts :
    let w := (begin partTypes true).run (secondPart (.int 2))
    ∃ (cap : Capture) (d : Delta) (u : Store), commitWatched w.world.types partOwner false w.world.store =
      .ok (some (cap.tid, d)) u ∧ u.lastTid = cap.tid ∧
        u.backend = w.world.store.backend.apply cap.batch := by
  intro w
  have hrun : EachStep step (KeepsKinds fun _ _ => .family .number) (begin partTypes true)
      (secondPart (.int 2)) :=
    ⟨trivial, trivial, by decide +kernel, trivial, trivial, trivial, trivial⟩
  have hp1 : ((outcome (p1Watched w.world.types partOwner w.world.store)).bind Prod.fst).isSome =
      true := by decide +kernel
  rcases Option.isSome_iff_exists.mp hp1 with ⟨⟨cap, d⟩, hsome⟩
  rcases Option.bind_eq_some_iff.mp hsome with ⟨⟨r, t⟩, hrun₁, rfl⟩
  rcases ((durable_commit_completes (fun _ _ => .family .number) partTypes true (secondPart (.int 2))
    hrun partOwner).2 (by decide +kernel)).2 cap d t (outcome_eq_some.mp hrun₁) with
    ⟨u, hcommit, htid, hbackend, -⟩
  exact ⟨cap, d, u, hcommit, htid, hbackend⟩

/-- With a string it is stored, raises, and never reaches the consumer; after a
    restart the index of the class cannot be made any more. -/
theorem durable_commit_raises :
    let w := (begin partTypes true).run (secondPart (.scalar (.str "a")))
    (p1Watched partTypes partOwner w.world.store matches .ok (some _) _) ∧
      (commitWatched partTypes partOwner false w.world.store matches .error _ _) ∧
      (w.step (.act partOwner (.commit false))).world.store.backend.marks.nextTid = 3 ∧
      (w.step (.act partOwner (.commit false))).world.store.lastTid = 1 ∧
      (w.step (.act partOwner (.commit false))).stream.length = 1 ∧
      (ensureIndex partTypes "part"
        ((w.step (.act partOwner (.commit false))).step (.crashAndOpen partTypes)).world.store
          matches .error _ _) := by
  decide +kernel

end Watched

end DataCrystal
