import DataCrystal.Index.Build
import DataCrystal.Index.Holders

/-!
# The Extent of an Index

An index that was built has the OIDs in its extent that the scan met, whatever
values they were indexed under. Nothing is assumed of the values: a build that
cannot post one of them raises, and there is no index then.

## Theorems

* `insert_extent`: Folding in a write adds its OID.
* `build_extent`: The extent of a build.
-/

namespace DataCrystal

namespace ClassIndexes

variable {ci ci' : ClassIndexes} {oid : Nat} {ρ : Type}

theorem extent_forget (oid : Nat) (ci : ClassIndexes) :
    (ci.withLastValues.forget oid).extent = ci.extent := by
  rw [forget]
  split <;> exact (withLastValues_frame ci).1

/-- Posting an OID under the keys of a field leaves the extent alone. -/
theorem extent_indexEntry (extent : Finset Nat) (e : String × Val ρ) :
    Keeps (fun ci => ci.extent = extent) (indexEntry oid e) := by
  refine keeps_indexEntry (fun _ _ _ h => h) (fun _ _ _ h => h) (fun ci f k h => ?_) e
  cases k with
  | none => exact h
  | some key => exact h

/-- Folding in a write adds its OID to the extent. -/
theorem insert_extent {values : List (String × Val ρ)} (h : insert oid values ci = .ok () ci') :
    ci'.extent = Insert.insert oid ci.extent := by
  unfold insert at h
  rw [bind_run_ok (modify_run _ _), bind_run_ok (modify_run _ _)] at h
  rcases bind_ok_iff.mp h with ⟨indexed, c, hentries, hmemory⟩
  have hkeep : Keeps (fun d : ClassIndexes => d.extent = Insert.insert oid ci.extent)
      (values.mapM (indexEntry oid)) := moves_mapM (extent_indexEntry _) values
  have hc := hkeep.of_ok hentries (by
    change Insert.insert oid (ci.withLastValues.forget oid).extent = _
    rw [extent_forget])
  cases hmemory
  exact hc

/-- A loop whose steps add their OIDs to the extent adds all of them. -/
theorem forM_extent {step : StoredRecord → EStateM Err ClassIndexes Unit}
    (recs : List StoredRecord)
    (hstep : ∀ rec ∈ recs, ∀ ci ci', step rec ci = .ok () ci' →
      ci'.extent = Insert.insert rec.oid ci.extent) : ∀ ci, recs.forM step ci = .ok () ci' →
      ∀ k, k ∈ ci'.extent ↔ k ∈ ci.extent ∨ ∃ rec ∈ recs, rec.oid = k := by
  induction recs with
  | nil =>
      intro ci h k
      cases h
      simp
  | cons rec recs ih =>
      intro ci h k
      rw [forM_cons_run] at h
      rcases bind_ok_iff.mp h with ⟨_, c, hone, hrest⟩
      have hc := hstep rec List.mem_cons_self ci c hone
      have hrec := ih (fun r hr => hstep r (List.mem_cons_of_mem rec hr)) c hrest k
      rw [hrec, hc, Finset.mem_insert, List.exists_mem_cons_iff, eq_comm]
      tauto

/-- The records of a shape are in the extent once it is indexed. -/
theorem indexShape_extent {ti : TypeInfo} {scan : Nat → List StoredRecord}
    {shape : Nat × List String} (h : indexShape ti scan shape ci = .ok () ci') (k : Nat) :
    k ∈ ci'.extent ↔ k ∈ ci.extent ∨ ∃ rec ∈ scan shape.1, rec.oid = k := by
  unfold indexShape at h
  split at h
  · refine forM_extent (scan shape.1) (fun rec _ c c' hone => ?_) ci h k
    cases hone
    rfl
  · rcases bind_ok_iff.mp h with ⟨colliding, c, hfill, hloop⟩
    rw [(ofExcept_ok_iff.mp hfill).2] at hloop
    refine forM_extent (scan shape.1) (fun rec _ c c' hone => ?_) ci hloop k
    cases colliding with
    | some name => cases hone
    | none => exact insert_extent hone

/-- The extent of a build is what the scan met. -/
theorem build_extent {ti : TypeInfo} {lineage : Lineage} {scan : Nat → List StoredRecord}
    (h : buildClassIndexes ti lineage scan = .ok ci) (k : Nat) :
    k ∈ ci.extent ↔ ∃ shape ∈ lineage, ∃ rec ∈ scan shape.1, rec.oid = k := by
  have hloop : ∀ (shapes : Lineage) (c c' : ClassIndexes),
      shapes.forM (indexShape ti scan) c = .ok () c' →
      (k ∈ c'.extent ↔ k ∈ c.extent ∨ ∃ shape ∈ shapes, ∃ rec ∈ scan shape.1, rec.oid = k) := by
    intro shapes
    induction shapes with
    | nil =>
        intro c c' hrun
        cases hrun
        simp
    | cons shape shapes ih =>
        intro c c' hrun
        rw [forM_cons_run] at hrun
        rcases bind_ok_iff.mp hrun with ⟨_, d, hone, hrest⟩
        rw [ih d c' hrest, indexShape_extent hone, List.exists_mem_cons_iff, or_assoc]
  rw [buildClassIndexes] at h
  cases hrun : buildProgram ti lineage scan (bulkInit ti) with
  | error e c => simp [hrun] at h
  | ok u c =>
      simp only [hrun, Except.ok.injEq] at h
      rcases bind_ok_iff.mp hrun with ⟨_, d, hshapes, hfinal⟩
      have hsame : Keeps (fun c : ClassIndexes => c.extent = d.extent) finalizeBuild :=
        keeps_finalizeBuild (fun _ _ _ hc => hc) fun _ hc => hc
      rw [← h, hsame.of_ok hfinal rfl, hloop lineage _ d hshapes]
      simp [bulkInit, init]

end ClassIndexes

end DataCrystal
