import DataCrystal.Families
import DataCrystal.Folding
import DataCrystal.Index.Deferred
import DataCrystal.Index.Readable

/-!
# The Labels an Index Remembers

The fence of a live read asks the index of a protected class for the labels an OID
was indexed under. They are read off the memory of the index, not off the record,
and the memory may have been rebuilt from the postings behind a cache load. That an
index stands for its rows says under which keys an OID is remembered, but not how
often a key is named, and labels in a list of two are no labels.

So it takes one more fact: no key of a scalar field is remembered twice. It holds of
every index of every session, also of one that a raised exception left half changed.
What a session does to its indexes is made of five changes, so an invariant of the
indexes is checked once for each of the five.

## Main definitions

* `ClassIndexes.Brief`: Nothing of a scalar field is remembered twice.
* `IndexManager.Brief`: The same of all indexes of a session.
* `IndexManager.Lasting`: A property of new indexes that every change keeps.

## Theorems

* `keeps_insert_brief`, `brief_remove`: Folding in a write or a delete.
* `brief_build`, `brief_load`: An index on first use.
* `committedLabels_spec`: The labels in the memory are those of the row.
* `Watched.run_lasting`: A lasting property holds of the indexes of any run.
-/

namespace DataCrystal

open Store

namespace ClassIndexes

variable {ρ : Type} {ci ci' : ClassIndexes} {oid : Nat} {f : String}

/-- No key of a scalar field is remembered twice. -/
def Brief (ci : ClassIndexes) : Prop :=
  ∀ oid f, f ∉ ci.listFields → (recalled (ci.lastValues oid) f).Nodup

theorem Brief.congr (h : Brief ci) (hlist : ci'.listFields = ci.listFields)
    (hlast : ci'.lastValues = ci.lastValues) : Brief ci' := by
  intro oid f hf
  rw [hlast]
  exact h oid f (hlist ▸ hf)

theorem nodup_rebuiltKeys (ci : ClassIndexes) (oid : Nat) (f : String) :
    (ci.rebuiltKeys oid f).Nodup := by
  unfold rebuiltKeys
  cases ci.eq.get? f with
  | some col => exact col.nodup.sublist (List.filter_sublist.map Prod.fst)
  | none =>
      cases ci.unique.get? f with
      | none => exact List.nodup_nil
      | some m =>
          have hkeys : ((m.entries.filter fun e => e.2 = oid).map Prod.fst).Nodup :=
            m.nodup.sublist (List.filter_sublist.map Prod.fst)
          have hsome := hkeys.map (Option.some_injective Key)
          rwa [List.map_map] at hsome

/-- What is rebuilt from the postings names nothing twice. -/
theorem brief_withLastValues (h : Brief ci) : Brief ci.withLastValues := by
  unfold withLastValues
  by_cases hneeds : ci.needsLvRebuild = true
  · rw [if_pos hneeds]
    intro oid f _
    unfold rebuildLastValues
    dsimp only
    split
    · exact nodup_rebuiltKeys ci oid f
    · exact List.nodup_nil
  · rw [if_neg hneeds]
    exact h

theorem brief_forget (h : Brief ci) (oid : Nat) : Brief (ci.withLastValues.forget oid) := by
  have hw := brief_withLastValues h
  unfold forget
  cases hold : ci.withLastValues.lastValues oid with
  | none => exact hw
  | some old =>
      intro n f hf
      dsimp only
      rw [recalled_update]
      split
      · exact List.nodup_nil
      · exact hw n f hf

theorem brief_remove (h : Brief ci) (oid : Nat) : Brief (ci.remove oid) :=
  (brief_forget h oid).congr rfl rfl

/-- A scalar value has one key at most. -/
theorem nodup_indexKeys {v : Val ρ} {keys : List (Option Key)}
    (h : v.indexKeys false = .ok keys) : keys.Nodup := by
  unfold Val.indexKeys at h
  cases hk : v.scalarKey with
  | error e =>
      rw [hk] at h
      cases h
  | ok k =>
      rw [hk] at h
      cases h
      exact List.nodup_singleton k

/-- The index fields and the memory while keys are entered. -/
def SameTables (ci ci' : ClassIndexes) : Prop :=
  ci'.listFields = ci.listFields ∧ ci'.lastValues = ci.lastValues

theorem keeps_sameTables (ci : ClassIndexes) (oid : Nat) (e : String × Val ρ) :
    Keeps (SameTables ci) (indexEntry oid e) :=
  keeps_indexEntry (fun _ _ _ h => h) (fun _ _ _ h => h) (fun _ _ k h => by cases k <;> exact h) e

/-- The keys of an entry of a scalar field. -/
theorem indexEntry_nodup {e : String × Val ρ} {r : String × List (Option Key)}
    (hrun : indexEntry oid e ci = .ok r ci') (hf : r.1 ∉ ci.listFields) : r.2.Nodup := by
  rcases bind_ok_iff.mp hrun with ⟨keys, c₁, hfield, hret⟩
  cases hret
  unfold indexField at hfield
  rw [bind_run_ok (get_run ci)] at hfield
  rcases bind_ok_iff.mp hfield with ⟨keys', c₂, hkeys, hrest⟩
  rcases bind_ok_iff.mp hrest with ⟨_, c₃, -, hret⟩
  cases hret
  have hvalue := except_mapError_ok_iff.mp (ofExcept_ok_iff.mp hkeys).1
  rw [Bool.eq_false_iff.mpr fun hc => hf (List.contains_iff_mem.mp hc)] at hvalue
  exact nodup_indexKeys hvalue

/-- What is collected to be remembered. -/
theorem leads_indexEntries (ci : ClassIndexes) (oid : Nat) : ∀ values : List (String × Val ρ),
    Leads (SameTables ci) (values.mapM (indexEntry oid))
      (fun indexed t => SameTables ci t ∧ ∀ r ∈ indexed, r.1 ∉ ci.listFields → r.2.Nodup)
      (SameTables ci)
  | [] => leads_pure fun t h => ⟨h, fun r hr => absurd hr List.not_mem_nil⟩
  | e :: values => by
      rw [List.mapM_cons]
      have hone : Leads (SameTables ci) (indexEntry oid e)
          (fun r t => SameTables ci t ∧ (r.1 ∉ ci.listFields → r.2.Nodup)) (SameTables ci) := by
        intro s hs
        have hfinal := (keeps_sameTables ci oid e).final hs
        cases hrun : indexEntry oid e s with
        | error err t =>
            rw [hrun] at hfinal
            exact hfinal
        | ok r t =>
            rw [hrun] at hfinal
            exact ⟨hfinal, fun hf => indexEntry_nodup hrun (hs.1 ▸ hf)⟩
      refine leads_bind hone fun r => leads_of (fun t ht => ht.2) fun hr => ?_
      refine leads_mono (leads_bind (leads_indexEntries ci oid values) fun rs => ?_)
        (fun t ht => ht.1) fun _ _ h => h
      refine leads_pure fun t ht => ⟨ht.1, fun r' hr' hf => ?_⟩
      rcases List.mem_cons.mp hr' with rfl | hr'
      · exact hr hf
      · exact ht.2 r' hr' hf

theorem brief_setMemory (h : Brief ci) {indexed : List (String × List (Option Key))}
    (hall : ∀ r ∈ indexed, r.1 ∉ ci.listFields → r.2.Nodup) (oid : Nat) :
    Brief (ci.setMemory oid (snapshot indexed)) := by
  intro n f hf
  unfold setMemory
  dsimp only
  rw [recalled_update]
  split
  · rw [recalled_some, snapshot]
    cases hfind : indexed.find? fun e => e.1 = f with
    | none => exact List.nodup_nil
    | some r =>
        have hname : r.1 = f := by simpa using List.find?_some hfind
        exact hall r (List.mem_of_find?_eq_some hfind) (hname ▸ hf)
  · exact h n f hf

/-- Folding in a write, whether it returns or raises. -/
theorem keeps_insert_brief (oid : Nat) (values : List (String × Val ρ)) :
    Keeps Brief (insert oid values) := by
  have hleads : Leads Brief (insert oid values) (fun _ => Brief) Brief := by
    intro ci hci
    have hstart : Brief ((ci.withLastValues.forget oid).setExtent
        (Insert.insert oid (ci.withLastValues.forget oid).extent)) :=
      (brief_forget hci oid).congr rfl rfl
    rw [insert, bind_run_ok (modify_run _ ci), bind_run_ok (modify_run _ _)]
    generalize (ci.withLastValues.forget oid).setExtent
      (Insert.insert oid (ci.withLastValues.forget oid).extent) = c at hstart ⊢
    have hentries := leads_indexEntries c oid values c ⟨rfl, rfl⟩
    cases hrun : values.mapM (indexEntry oid) c with
    | error e t =>
        rw [hrun] at hentries
        rw [bind_run_error hrun]
        exact hstart.congr hentries.1 hentries.2
    | ok indexed t =>
        rw [hrun] at hentries
        rw [bind_run_ok hrun, modify_run]
        have ht : Brief t := hstart.congr hentries.1.1 hentries.1.2
        exact brief_setMemory ht (fun r hr hf => hentries.2 r hr (hentries.1.1 ▸ hf)) oid
  exact fun ci => .single fun hci => hleads.final (fun _ _ h => h) (fun _ h => h) hci

theorem keeps_finalizeBuild_brief : Keeps Brief finalizeBuild :=
  keeps_finalizeBuild (fun _ _ _ h => h.congr rfl rfl) fun _ h => h.congr rfl rfl

theorem brief_of_forgetful (h : ∀ oid, ci.lastValues oid = none) : Brief ci := by
  intro oid f _
  rw [h oid]
  exact List.nodup_nil

/-- An index that is built. -/
theorem brief_build {ti : TypeInfo} {lineage : Lineage} {scan : Nat → List StoredRecord}
    (h : buildClassIndexes ti lineage scan = .ok ci) : Brief ci := by
  have hkeeps : Keeps Brief (buildProgram ti lineage scan) := by
    refine moves_bind (moves_forM (fun shape => ?_) _) fun _ => keeps_finalizeBuild_brief
    have hextent : ∀ rec : StoredRecord, Keeps Brief
        (change fun ci => ci.setExtent (Insert.insert rec.oid ci.extent)) :=
      fun rec => keeps_modify fun ci h => h.congr rfl rfl
    refine moves_ite (moves_forM hextent _) ?_
    refine moves_bind (moves_ofExcept _) fun colliding => moves_forM (fun rec => ?_) _
    cases colliding with
    | some name => exact moves_throw _
    | none => exact keeps_insert_brief rec.oid _
  have hinit : Brief (bulkInit ti) := brief_of_forgetful fun _ => rfl
  rw [buildClassIndexes] at h
  cases hrun : buildProgram ti lineage scan (bulkInit ti) with
  | ok u ci' =>
      simp only [hrun, Except.ok.injEq] at h
      rw [← h]
      exact hkeeps.of_ok hrun hinit
  | error e ci' => simp [hrun] at h

/-- An index that is loaded remembers nothing yet. -/
theorem brief_load {blob : IndexBlob} {ti : TypeInfo} (h : load blob ti = .ok (some ci)) :
    Brief ci := by
  rw [load] at h
  split at h
  · cases hrun : finalizeBuild (ofBlob blob) with
    | ok u ci' =>
        simp only [hrun, Except.ok.injEq, Option.some.injEq] at h
        rw [← h]
        exact keeps_finalizeBuild_brief.of_ok hrun (brief_of_forgetful fun _ => rfl)
    | error e ci' => simp [hrun] at h
  · simp at h

section Labels

variable {fam : String → Family} {ti : TypeInfo} {rows : Rows} {lost : Lost}
  {labels : Nat → Labels}

/-- A list without repetitions that holds what a list of one holds. -/
theorem eq_singleton_of_mem_iff {α : Type} {xs : List α} {x : α} (hnd : xs.Nodup)
    (h : ∀ y, y ∈ xs ↔ y ∈ [x]) : xs = [x] :=
  List.perm_singleton.mp ((List.perm_ext_iff_of_nodup hnd (List.nodup_singleton x)).mpr h)

/-- What is remembered of a scalar field is what the row holds. -/
theorem recalled_scalar (h : Represents ti rows lost ci) (hb : Brief ci) {x : Option Key}
    (hf : f ∈ ti.eqIndexFields) (hlist : f ∉ ti.listFields) (hrow : recalled (rows oid) f = [x]) :
    recalled (ci.withLastValues.lastValues oid) f = [x] := by
  have hfields : ci.withLastValues.listFields = ci.listFields := by
    unfold withLastValues
    split <;> rfl
  refine eq_singleton_of_mem_iff (brief_withLastValues hb oid f ?_) fun k => ?_
  · rw [hfields]
    exact fun hc => hlist ((h.listFields f).mp hc)
  · rw [h.memory oid f hf k, hrow]

/-- Reading looks at the groups of a record as a set. -/
theorem canReadRow_congr {p : Principal} {owner floor : ℤ} {groups groups' : List ℤ}
    (h : ∀ g, g ∈ groups ↔ g ∈ groups') :
    canReadRow p owner groups floor = canReadRow p owner groups' floor := by
  rw [Bool.eq_iff_iff, canReadRow_iff, canReadRow_iff]
  cases howner : isOwner p owner with
  | true => simp
  | false =>
      have hnil : groups = [] ↔ groups' = [] := by
        rw [List.eq_nil_iff_forall_not_mem, List.eq_nil_iff_forall_not_mem]
        simp only [h]
      rw [le_authorityTowards_iff p owner groups floor howner,
        le_authorityTowards_iff p owner groups' floor howner, hnil]
      simp only [h]

/-- The fields of the labels of a protected class, and which of them is a list. -/
theorem label_lists (hprot : ti.isProtected = true) :
    "_dc_owner" ∉ ti.listFields ∧ "_dc_read_floor" ∉ ti.listFields := by
  have hscalar : ∀ s ∈ permSpecs, s.multivalued = false → s.name ∉ ti.listFields := by
    intro s hs hm hc
    rcases (ti.mem_listFields _).mp hc with ⟨t, ht, htm, hname⟩
    rw [ti.spec_unique ht (mem_permSpec hprot hs) hname, hm] at htm
    cases htm
  exact ⟨hscalar permSpecs[0] (by decide) rfl, hscalar permSpecs[2] (by decide) rfl⟩

/-- The labels that are remembered for a row are those the row carries, but for the
    order and the repetitions of the groups; for no row there are none. -/
theorem committedLabels_spec (h : Represents ti rows lost ci) (hb : Brief ci)
    (hprot : ti.isProtected = true) (hlab : LabelledRows rows labels) (oid : Nat) :
    ((rows oid).isSome → ∃ groups, (∀ g, g ∈ groups ↔ g ∈ (labels oid).groups) ∧
      ci.committedLabels oid = some ((labels oid).owner, groups, (labels oid).readFloor)) ∧
      (rows oid = none → ci.committedLabels oid = none) := by
  rcases label_fields hprot with ⟨howner, hgroups, hfloor⟩
  have hfloor' : "_dc_read_floor" ∈ ti.eqIndexFields :=
    (ti.mem_eqIndexFields _).mpr ⟨permSpecs[2], mem_permSpec hprot (by decide), rfl, rfl⟩
  rcases label_lists hprot with ⟨hownerList, hfloorList⟩
  constructor
  · intro hsome
    rcases Option.isSome_iff_exists.mp hsome with ⟨r, hr⟩
    have hrecalled : ∀ f, recalled (rows oid) f = r f := fun f => by rw [hr, recalled_some]
    have ho := recalled_scalar h hb howner hownerList
      ((hrecalled _).trans (hlab.owner oid r hr))
    have hl := recalled_scalar h hb hfloor' hfloorList
      ((hrecalled _).trans (hlab.readFloor oid r hr))
    rw [committedLabels_eq, ho, hl]
    refine ⟨_, fun g => ?_, rfl⟩
    simp only [List.mem_filterMap, h.memory oid _ hgroups, hrecalled, hlab.groups oid r hr]
    constructor
    · rintro ⟨k, hk, hg⟩
      rcases List.mem_map.mp hk with ⟨g', hg', rfl⟩
      simp only [Option.some.injEq, Rat.num_intCast] at hg
      exact hg ▸ hg'
    · exact fun hg => ⟨some (.fin g), List.mem_map.mpr ⟨g, hg, rfl⟩, by simp⟩
  · intro hnone
    have ho : recalled (ci.withLastValues.lastValues oid) "_dc_owner" = [] := by
      rw [List.eq_nil_iff_forall_not_mem]
      intro k hk
      rw [h.memory oid _ howner, hnone] at hk
      exact List.not_mem_nil hk
    rw [committedLabels_eq, ho]

end Labels

end ClassIndexes

namespace IndexManager

variable {m m' : IndexManager} {types : Types} {b : Backend} {lineage : String → Lineage}

/-- No key of a scalar field of a class is remembered twice. -/
def Brief (m : IndexManager) : Prop := ∀ c ci, m.byCls.get? c = some ci → ci.Brief

theorem Brief.congr (h : Brief m) (hcls : m'.byCls = m.byCls) : Brief m' := by
  intro c ci hci
  rw [hcls] at hci
  exact h c ci hci

theorem Brief.setCls (h : Brief m) {ci : ClassIndexes} (hci : ci.Brief) (c : String) :
    Brief (m.setCls c ci) := by
  intro c' ci' hget
  rw [IndexManager.setCls, Dict.get?_set] at hget
  split at hget
  · exact Option.some.inj hget ▸ hci
  · exact h c' ci' hget

/-- A property of the indexes of a session that has just begun, and of what any
    change makes of indexes that have it. -/
structure Lasting (I : IndexManager → Prop) : Prop where
  fresh : ∀ blobs rev, I { cacheBlobs := blobs, reverseBlob := rev }
  ensures : ∀ types b lineage m m', Ensures types b lineage m m' → I m → I m'
  reverse : ∀ b cids m, I m → I (m.ensureReverse b cids)
  apply : ∀ entries, Keeps I (IndexManager.apply entries)
  rest : ∀ cap m, I m → I (foldRest cap m)

theorem keeps_apply_brief (entries : List IndexEntry) : Keeps Brief (apply entries) := by
  refine moves_bind (keeps_modify fun m h => h.congr (m.invalidateReverseBlob_frame _).1)
    fun _ => moves_forM (fun e => moves_get_bind fun m => ?_) entries
  cases hcls : m.byCls.get? e.2.1 with
  | none => exact movesAt_modify fun h => h.congr rfl
  | some ci =>
      unfold MovesAt onClass
      rw [finalState_zoom]
      exact .single fun h =>
        h.setCls ((ClassIndexes.keeps_insert_brief e.1 e.2.2).final (h e.2.1 ci hcls)) e.2.1

theorem brief_applyDeletes (deletes : List (Nat × String)) : ∀ m : IndexManager,
    Brief m → Brief (m.applyDeletes deletes) := by
  induction deletes with
  | nil => exact fun m h => h
  | cons d deletes ih =>
      intro m h
      refine ih (m.applyDelete d) ?_
      unfold applyDelete
      cases hcls : m.byCls.get? d.2 with
      | none => exact h.congr rfl
      | some ci => exact h.setCls (ClassIndexes.brief_remove (h d.2 ci hcls) d.1) d.2

/-- That nothing of a scalar field is remembered twice lasts. -/
theorem lasting_brief : Lasting Brief where
  fresh _ _ _ _ h := absurd h.symm (Option.some_ne_none _)
  ensures types b lineage m m' hstep h := by
    cases hstep with
    | built c ci hnone hload hbuild => exact h.setCls (ClassIndexes.brief_build hbuild) c
    | loaded c ci hnone hload =>
        unfold cached at hload
        cases hblob : m.cacheBlobs.bind fun blobs => blobs.get? c with
        | none => simp [hblob] at hload
        | some blob =>
            rw [hblob] at hload
            exact h.setCls (ClassIndexes.brief_load hload) c
  reverse b cids m h := by
    unfold ensureReverse
    split
    · exact h
    · split <;> exact h.congr rfl
  apply := keeps_apply_brief
  rest cap m h := by
    have hdel := brief_applyDeletes (cap.deletes.map fun d => (d.1, d.2.1)) _
      (h.congr (m.applyReverse_frame cap.refEntries).1)
    exact hdel.congr (removeReverse_frame (cap.deletes.map Prod.fst) _).1

end IndexManager

namespace Store

variable {types : Types} {p : Principal} {kind : Nat → String} {fault : Bool} {s t u : Store}
  {I : IndexManager → Prop}

theorem prepares_lasting (hI : IndexManager.Lasting I) (hstep : Prepares types p s t)
    (h : I s.index) : I t.index := by
  rcases prepares_kinds hstep with hsame | ⟨m, hm, rfl⟩ | rfl | ⟨c, rfl⟩
  · exact hsame.index ▸ h
  · exact hI.ensures _ _ _ _ _ hm h
  · exact hI.reverse _ _ _ h
  · exact h

theorem prepared_lasting (hI : IndexManager.Lasting I)
    (hrun : Relation.ReflTransGen (Prepares types p) s t) (h : I s.index) : I t.index :=
  reflTransGen_invariant (I := fun u => I u.index)
    (fun _ _ hstep hs => prepares_lasting hI hstep hs) hrun h

/-- However a commit ends, also in the midst of the index fold. -/
theorem ends_lasting (hI : IndexManager.Lasting I) (hc : Coherent kind s)
    (hends : Ends types p fault s u) (h : I s.index) : I u.index := by
  rcases hends with hprep | ⟨s₁, m, out, t, hcap, rfl⟩
  · exact prepared_lasting hI hprep h
  · have ht := prepared_lasting hI hcap.prepares h
    cases fault with
    | true =>
        rcases rollback_spec types (s₁.refEntries types) out (hcap.coherent hc) with
          ⟨_, _, _, _, _, heq, -⟩
        rw [if_pos rfl, captured, heq]
        exact ht
    | false =>
        rw [if_neg (by decide)]
        rcases foldl_flipOne types t.pending.entries t with ⟨hp, r, hflip, -⟩
        have hindex : (applyBatch (captured types s₁ t out).batch (t.settle types)).index =
            t.index := by
          simp only [applyBatch, settle, hflip]
        have hfolded := (hI.apply (captured types s₁ t out).indexEntries).final ht
        rcases p3Finalize_final (captured types s₁ t out)
          (applyBatch (captured types s₁ t out).batch (t.settle types)) with ⟨e, herr⟩ | hok
        · rw [herr, finalState_error, hindex]
          exact hfolded
        · rcases finishCommit_frame (captured types s₁ t out)
            { applyBatch (captured types s₁ t out).batch (t.settle types) with
              index := finalState (IndexManager.apply (captured types s₁ t out).indexEntries
                (applyBatch (captured types s₁ t out).batch (t.settle types)).index) } with
            ⟨hp', r', hfinish⟩
          rw [hok, finalState_ok, hfinish, hindex]
          exact hI.rest _ _ hfolded

end Store

namespace Watched

/-- A lasting property holds of the indexes of every session of a run. -/
theorem run_lasting {I : IndexManager → Prop} (hI : IndexManager.Lasting I) (types : Types)
    (attached : Bool) (events : List Event) :
    I ((begin types attached).run events).world.store.index := by
  induction events using List.reverseRecOn with
  | nil => exact hI.fresh _ _
  | append_singleton events e ih =>
      rcases run_coherent types attached events with ⟨kind, hc⟩
      rw [run, List.foldl_append]
      change I (((begin types attached).run events).step e).world.store.index
      rcases step_world ((begin types attached).run events) e with
        ⟨p, fault, -, u, hends, hworld⟩ | ⟨hno, hworld⟩
      · rw [hworld]
        exact Store.ends_lasting hI hc.store hends ih
      · rw [hworld]
        cases e with
        | closeAndOpen types => exact hI.fresh _ _
        | crashAndOpen types => exact hI.fresh _ _
        | act p op =>
            rcases op.kinds with hop | ⟨fault, rfl⟩ | rfl
            · have hmoves := Relation.ReflTransGen.mono
                (fun _ _ hstep => (Or.inl hstep : Store.Prepares _ p _ _)) _ _
                (moves_op ((begin types attached).run events).world.types p op hop
                  ((begin types attached).run events).world.store)
              exact Store.prepared_lasting hI hmoves ih
            · exact absurd rfl (hno p fault)
            · exact hI.fresh _ _

theorem run_brief (types : Types) (attached : Bool) (events : List Event) :
    ((begin types attached).run events).world.store.index.Brief :=
  run_lasting IndexManager.lasting_brief types attached events

end Watched

end DataCrystal
