import DataCrystal.Index.Cached
import DataCrystal.Rows
import DataCrystal.Unique

/-!
# Folding a Commit into the Indexes

Before a commit a built index stands for the rows of its class, and after the
third phase it has to stand for the rows storage holds then. The fold replaces a
row for every written entity and drops one for every deleted entity, and both
are steps an index can follow.

Between the two the unique maps are ahead of the rows: a new record may hold the
key of a record that is still to be dropped. The rows whose keys are lost in
this way are rows the commit deletes, so once the deletions are folded in no key
is lost.

A class whose index is not built is not touched. Its cached index, if there is
one, is dropped by the first entry or deletion of the class, so a blob that
survives the fold is one of a class the commit did not write.

## Main definitions

* `IndexManager.Faithful`: Every index of a session stands for its rows.
* `writtenRows`, `droppedRows`: The rows the fold goes through.

## Theorems

* `ensures_faithful`: Making an index.
* `apply_represents`, `applyDeletes_represents`: A built index.
* `apply_unbuilt`, `applyDeletes_unbuilt`: A cached index.
-/

namespace DataCrystal

open ClassIndexes Store

variable {fam : String → String → Family} {types : Types}

/-- Classes with the same markers read a blob alike. -/
theorem IndexBlob.Stands.transfer {fam : String → Family} {ti ti' : TypeInfo} {rows rows' : Rows}
    {blob : IndexBlob} (h : blob.Stands fam ti rows) (hmatch : blobMatches blob ti' = true)
    (hsame : SameKeys ti rows rows') : blob.Stands fam ti' rows' := by
  rcases blobMatches_fields hmatch with ⟨heq, hunique, hlist, hsorted⟩
  have hr := represents_congr h.represents hsame
  have heq' : ∀ f, f ∈ ti'.eqIndexFields ↔ f ∈ ti.eqIndexFields :=
    fun f => (heq f).symm.trans (hr.eqKeys f)
  have hunique' : ∀ f, f ∈ ti'.uniqueFields ↔ f ∈ ti.uniqueFields :=
    fun f => (hunique f).symm.trans (hr.uniqueKeys f)
  have hsorted' : ∀ f, f ∈ ti'.sortedFields ↔ f ∈ ti.sortedFields :=
    fun f => (hsorted f).symm.trans (hr.sortedFields f)
  exact ⟨⟨heq, hunique, hlist, hsorted, hr.extent,
    fun f hf => hr.posting f ((heq' f).mp hf), fun f hf => hr.holds f ((hunique' f).mp hf),
    fun f hf => hr.held f ((hunique' f).mp hf), fun n f hf => hr.memory n f ((heq' f).mp hf),
    fun n f hf => hr.uniqueMemory n f ((hunique' f).mp hf)⟩,
    fun f hf => h.ordered f ((hsorted' f).mp hf), fun f hf => h.keys f ((hsorted' f).mp hf)⟩

namespace IndexManager

variable {P : String → Prop} {b : Backend} {m m' : IndexManager} {c : String}

/-- An index stands for the stored rows of its class: its postings and unique maps
    are those of the rows, its runs are sorted, and it is not in the middle of a
    bulk build. -/
structure StandsFor (fam : String → String → Family) (types : Types) (b : Backend) (c : String)
    (ci : ClassIndexes) : Prop where
  represents : Represents (types.info c) (b.classRows (types.info c) c) noneLost ci
  sound : Sound (fam c) ci
  done : ci.building = false

/-- The cached index of a class. -/
def blobOf (m : IndexManager) (c : String) : Option IndexBlob :=
  m.cacheBlobs.bind fun blobs => blobs.get? c

/-- Every index of a session, built or cached, stands for the stored rows of its
    class, for the classes with the property. -/
structure Faithful (P : String → Prop) (fam : String → String → Family) (types : Types)
    (b : Backend) (m : IndexManager) : Prop where
  built : ∀ c ci, P c → m.byCls.get? c = some ci → StandsFor fam types b c ci
  cached : ∀ c blob, P c → m.byCls.get? c = none → m.blobOf c = some blob →
    blobMatches blob (types.info c) = true →
    blob.Stands (fam c) (types.info c) (b.classRows (types.info c) c)

theorem Faithful.congr (h : m.Faithful P fam types b) (hcls : m'.byCls = m.byCls)
    (hblobs : m'.cacheBlobs = m.cacheBlobs) : m'.Faithful P fam types b := by
  have hblob : ∀ c, m'.blobOf c = m.blobOf c := by
    intro c
    unfold blobOf
    rw [hblobs]
  exact ⟨fun c ci hP hci => h.built c ci hP (hcls ▸ hci),
    fun c blob hP hno hb => h.cached c blob hP (hcls ▸ hno) (hblob c ▸ hb)⟩

theorem Faithful.setCls (h : m.Faithful P fam types b) {ci : ClassIndexes}
    (hci : P c → StandsFor fam types b c ci) : (m.setCls c ci).Faithful P fam types b := by
  refine ⟨fun d di hP hd => ?_, fun d blob hP hno hb => ?_⟩
  · rw [IndexManager.setCls, Dict.get?_set] at hd
    split at hd
    · rename_i hdc
      rw [hdc] at hP ⊢
      rw [← Option.some.inj hd]
      exact hci hP
    · exact h.built d di hP hd
  · refine h.cached d blob hP ?_ hb
    rw [IndexManager.setCls, Dict.get?_set] at hno
    split at hno
    · cases hno
    · exact hno

/-- A loaded index stands for the rows its blob stands for. -/
theorem Faithful.loaded (h : m.Faithful P fam types b) {ci : ClassIndexes} (hP : P c)
    (hnone : m.byCls.get? c = none) (hload : m.cached types c = .ok (some ci)) :
    StandsFor fam types b c ci := by
  unfold IndexManager.cached at hload
  cases hblob : m.cacheBlobs.bind fun blobs => blobs.get? c with
  | none => rw [hblob] at hload; cases hload
  | some blob =>
      rw [hblob] at hload
      dsimp only at hload
      by_cases hmatch : blobMatches blob (types.info c) = true
      · rcases stands_load (h.cached c blob hP hnone hblob hmatch) hmatch with
          ⟨ci', hrun, hrep, hsound, hdone⟩
        rw [hrun, Except.ok.injEq, Option.some.injEq] at hload
        rw [← hload]
        exact ⟨hrep, hsound, hdone⟩
      · unfold ClassIndexes.load at hload
        rw [if_neg hmatch] at hload
        cases hload

/-- What a rebuild needs to stand for the rows: records that can be read, conform
    and hold no unique key twice. -/
structure Rebuildable (fam : String → String → Family) (types : Types) (s : Store) : Prop where
  families : ∀ c f, fam c f ≠ .nan
  rows : (s.typeRows.map Prod.fst).Nodup
  shapes : ∀ c, Admits (types.info c) (s.lineageFor c) s.backend.scanType
  conform : RowsConform fam types s.backend
  distinct : ∀ c, Distinct (types.info c) (s.backend.classRows (types.info c) c)

theorem Rebuildable.build {kind : Nat → String} {s : Store} (h : Rebuildable fam types s)
    (hs : StorageOk kind s) (c : String) : ∃ ci,
      buildClassIndexes (types.info c) (s.lineageFor c) s.backend.scanType = .ok ci ∧
        StandsFor fam types s.backend c ci := by
  rcases build_represents h.families hs h.rows (h.shapes c) h.conform (h.distinct c) with
    ⟨ci, hbuild, hrep, hsound, hdone⟩
  exact ⟨ci, hbuild, hrep, hsound, hdone⟩

/-- Making an index keeps the indexes faithful. -/
theorem ensures_faithful {kind : Nat → String} {s : Store}
    (hstep : Ensures types s.backend s.lineageFor m m') (h : m.Faithful P fam types s.backend)
    (hr : Rebuildable fam types s) (hs : StorageOk kind s) :
    m'.Faithful P fam types s.backend := by
  cases hstep with
  | loaded c ci hnone hload => exact h.setCls fun hP => h.loaded hP hnone hload
  | built c ci hnone hload hbuild =>
      rcases hr.build hs c with ⟨ci', hbuild', hci⟩
      rw [Except.ok.inj (hbuild.symm.trans hbuild')]
      exact h.setCls fun _ => hci

/-- An entry made of the maintained fields of an entity whose values conform.
    Nothing else of the entity is in it, so the fold of a commit sees what a scan of
    the record would. -/
structure EntryConforms (fam : String → String → Family) (types : Types) (e : IndexEntry) :
    Prop where
  values : e.2.2 = entryOf (types.info e.2.1) (entryValue e.2.2)
  conforms : Conforms (fam e.2.1) (types.info e.2.1) (entryValue e.2.2)

/-- The rows of a class with the entries of a commit written over them. -/
def writtenRows (types : Types) (c : String) (entries : List IndexEntry) (rows : Rows) : Rows :=
  entries.foldl (fun rows e =>
    if e.2.1 = c then Function.update rows e.1 (some (entryKeys types e)) else rows) rows

/-- The rows of a class without those a commit deletes. -/
def droppedRows (c : String) (deletes : List (Nat × String)) (rows : Rows) : Rows :=
  deletes.foldl (fun rows d => if d.2 = c then Function.update rows d.1 none else rows) rows

theorem writtenRows_other (entries : List IndexEntry) (n : Nat) : ∀ rows : Rows,
    (∀ e ∈ entries, e.2.1 = c → e.1 ≠ n) → writtenRows types c entries rows n = rows n := by
  induction entries with
  | nil => exact fun rows _ => rfl
  | cons e entries ih =>
      intro rows h
      unfold writtenRows at ih ⊢
      rw [List.foldl_cons, ih _ fun e' he => h e' (List.mem_cons_of_mem e he)]
      split
      · rename_i hc
        exact Function.update_of_ne (h e List.mem_cons_self hc).symm _ _
      · rfl

theorem writtenRows_of_mem (entries : List IndexEntry) {e : IndexEntry} (hc : e.2.1 = c) :
    ∀ rows : Rows, (entries.map Prod.fst).Nodup → e ∈ entries →
      writtenRows types c entries rows e.1 = some (entryKeys types e) := by
  induction entries with
  | nil => exact fun rows _ he => absurd he List.not_mem_nil
  | cons e' entries ih =>
      intro rows hnd he
      rw [List.map_cons, List.nodup_cons] at hnd
      rcases List.mem_cons.mp he with rfl | he
      · -- no later entry is about the same OID
        have hrest : writtenRows types c entries
            (Function.update rows e.1 (some (entryKeys types e))) e.1 =
              Function.update rows e.1 (some (entryKeys types e)) e.1 :=
          writtenRows_other entries e.1 _ fun d hd _ heq => hnd.1 (heq ▸ List.mem_map_of_mem hd)
        unfold writtenRows at hrest ⊢
        rw [List.foldl_cons, if_pos hc, hrest, Function.update_self]
      · exact ih _ hnd.2 he

theorem droppedRows_other (deletes : List (Nat × String)) {n : Nat} : ∀ rows : Rows,
    (n, c) ∉ deletes → droppedRows c deletes rows n = rows n := by
  induction deletes with
  | nil => exact fun rows _ => rfl
  | cons d deletes ih =>
      intro rows h
      rw [List.mem_cons, not_or] at h
      unfold droppedRows at ih ⊢
      rw [List.foldl_cons, ih _ h.2]
      split
      · rename_i hc
        refine Function.update_of_ne (fun hn => h.1 ?_) _ _
        rw [hn, ← hc]
      · rfl

theorem droppedRows_of_mem (deletes : List (Nat × String)) {n : Nat} : ∀ rows : Rows,
    (n, c) ∈ deletes → droppedRows c deletes rows n = none := by
  induction deletes with
  | nil => exact fun rows h => absurd h List.not_mem_nil
  | cons d deletes ih =>
      intro rows h
      by_cases hrest : (n, c) ∈ deletes
      · exact ih _ hrest
      · rcases List.mem_cons.mp h with rfl | hmem
        · have hother := droppedRows_other deletes (Function.update rows n none) hrest
          unfold droppedRows at hother ⊢
          rw [List.foldl_cons, if_pos rfl, hother, Function.update_self]
        · exact absurd hmem hrest

/-- What folding one entry in does to the manager. -/
theorem applyEntry_ok {e : IndexEntry} (h : applyEntry e m = .ok () m') :
    (m.byCls.get? e.2.1 = none ∧ m' = m.invalidateStaleBlob e.2.1) ∨
      ∃ ci ci', m.byCls.get? e.2.1 = some ci ∧ insert e.1 e.2.2 ci = .ok () ci' ∧
        m' = m.setCls e.2.1 ci' := by
  unfold applyEntry at h
  rw [bind_run_ok (get_run m)] at h
  cases hcls : m.byCls.get? e.2.1 with
  | none =>
      rw [hcls] at h
      cases h
      exact Or.inl ⟨rfl, rfl⟩
  | some ci =>
      rw [hcls] at h
      rcases zoom_ok_iff.mp h with ⟨ci', hrun, rfl⟩
      exact Or.inr ⟨ci, ci', rfl, hrun, rfl⟩

section Built

variable {lost : Lost}

/-- A built index follows the entries of a commit, if the keys they bring are
    held by nobody else but rows that may lose them. -/
theorem applyEntries_represents (entries : List IndexEntry) : ∀ {m : IndexManager} {rows : Rows}
    {ci : ClassIndexes}, m.byCls.get? c = some ci → Represents (types.info c) rows lost ci →
      Sound (fam c) ci → ci.building = false → (∀ e ∈ entries, EntryConforms fam types e) →
      (∀ e ∈ entries, e.2.1 = c → ∀ f ∈ (types.info c).uniqueFields, ∀ k n,
        some k ∈ entryKeys types e f → n ≠ e.1 → some k ∈ recalled (rows n) f → lost f k n) →
      (∀ e ∈ entries, ∀ e' ∈ entries, e.2.1 = c → e'.2.1 = c →
        ∀ f ∈ (types.info c).uniqueFields, ∀ k, some k ∈ entryKeys types e f →
          some k ∈ entryKeys types e' f → e.1 = e'.1) →
      entries.forM applyEntry m = .ok () m' →
      ∃ ci', m'.byCls.get? c = some ci' ∧
        Represents (types.info c) (writtenRows types c entries rows) lost ci' ∧
        Sound (fam c) ci' ∧ ci'.building = false := by
  induction entries with
  | nil =>
      intro m rows ci hci hrep hs hdone _ _ _ hrun
      cases hrun
      exact ⟨ci, hci, hrep, hs, hdone⟩
  | cons e entries ih =>
      intro m rows ci hci hrep hs hdone hconf hfree hdist hrun
      rw [forM_cons_run] at hrun
      rcases bind_ok_iff.mp hrun with ⟨_, m₁, hone, hrest⟩
      have hconf' := fun e' he => hconf e' (List.mem_cons_of_mem e he)
      have hdist' := fun d hd d' hd' =>
        hdist d (List.mem_cons_of_mem e hd) d' (List.mem_cons_of_mem e hd')
      -- An entry of the class goes through insert, one of another class leaves its index alone.
      by_cases hc : e.2.1 = c
      · rcases applyEntry_ok hone with ⟨hnone, -⟩ | ⟨ci₀, ci₁, hci₀, hinsert, rfl⟩
        · rw [hc, hci] at hnone
          cases hnone
        · rw [hc, hci, Option.some.injEq] at hci₀
          rw [← hci₀] at hinsert
          have hent := hconf e List.mem_cons_self
          rw [hent.values] at hinsert
          have hcc := hent.conforms
          have hfree₀ := hfree e List.mem_cons_self hc
          rw [hc] at hinsert hcc
          have hkeys : entryKeys types e = rowKeys (types.info c) (entryValue e.2.2) := by
            funext f
            unfold entryKeys
            rw [hc]
          rw [hkeys] at hfree₀
          rcases represents_insert hrep hs e.1 (mem_relevant (types.info c))
            (entryValue e.2.2) hcc.keyed hcc.ordered hfree₀
            with ⟨ci', hrun', hrep', hs', hdone'⟩
          -- The insert that ran is the one that the representation speaks of.
          have hsame := hrun'.symm.trans hinsert
          cases hsame
          have hget : (m.setCls e.2.1 ci₁).byCls.get? c = some ci₁ := by
            rw [hc]
            exact Dict.get?_set_self _ _ _
          -- The remaining entries are free of clashes with the new row too.
          have hfree' : ∀ d ∈ entries, d.2.1 = c → ∀ f ∈ (types.info c).uniqueFields, ∀ k n,
              some k ∈ entryKeys types d f → n ≠ d.1 → some k ∈ recalled (Function.update rows e.1
                (some (rowKeys (types.info c) (entryValue e.2.2))) n) f → lost f k n := by
            intro d hd hdc f hf k n hk hn hrow
            rw [recalled_update] at hrow
            split at hrow
            · -- a key two entries bring is a key of one entity
              rename_i hne
              rw [recalled_some, ← hkeys] at hrow
              have hsame := hdist d (List.mem_cons_of_mem e hd) e List.mem_cons_self hdc hc f hf k
                hk hrow
              exact absurd (hne.trans hsame.symm) hn
            · exact hfree d (List.mem_cons_of_mem e hd) hdc f hf k n hk hn hrow
          rcases ih hget hrep' hs' (hdone'.trans hdone) hconf' hfree' hdist' hrest with
            ⟨ci'', hfinal⟩
          refine ⟨ci'', ?_⟩
          unfold writtenRows at hfinal ⊢
          rw [List.foldl_cons, if_pos hc, hkeys]
          exact hfinal
      · have hget : m₁.byCls.get? c = some ci := by
          rcases applyEntry_ok hone with ⟨-, rfl⟩ | ⟨ci₀, ci₁, -, -, rfl⟩
          · exact hci
          · exact (Dict.get?_set_ne _ _ fun heq => hc heq.symm).trans hci
        rcases ih hget hrep hs hdone hconf' (fun d hd => hfree d (List.mem_cons_of_mem e hd)) hdist'
          hrest with ⟨ci'', hfinal⟩
        refine ⟨ci'', ?_⟩
        unfold writtenRows at hfinal ⊢
        rw [List.foldl_cons, if_neg hc]
        exact hfinal

/-- A built index follows the deletions of a commit. -/
theorem applyDeletes_represents (deletes : List (Nat × String)) : ∀ {m : IndexManager}
    {rows : Rows} {ci : ClassIndexes}, m.byCls.get? c = some ci →
      Represents (types.info c) rows lost ci → Sound (fam c) ci → ci.building = false →
      ∃ ci', (m.applyDeletes deletes).byCls.get? c = some ci' ∧
        Represents (types.info c) (droppedRows c deletes rows) lost ci' ∧
        Sound (fam c) ci' ∧ ci'.building = false := by
  induction deletes with
  | nil => exact fun hci hrep hs hdone => ⟨_, hci, hrep, hs, hdone⟩
  | cons d deletes ih =>
      intro m rows ci hci hrep hs hdone
      unfold applyDeletes droppedRows at ih ⊢
      rw [List.foldl_cons, List.foldl_cons]
      by_cases hc : d.2 = c
      · rw [if_pos hc]
        refine ih ?_ (represents_remove hrep d.1) (sound_remove hs d.1) ?_
        · unfold applyDelete
          rw [hc, hci]
          exact Dict.get?_set_self _ _ _
        · unfold remove ClassIndexes.forget withLastValues
          split <;> split <;> exact hdone
      · rw [if_neg hc]
        refine ih ?_ hrep hs hdone
        unfold applyDelete
        split
        · exact hci
        · exact (Dict.get?_set_ne _ _ fun heq => hc heq.symm).trans hci

end Built

theorem blobOf_invalidate (m : IndexManager) (c d : String) :
    (m.invalidateStaleBlob d).blobOf c = if c = d then none else m.blobOf c := by
  unfold blobOf invalidateStaleBlob
  cases m.cacheBlobs with
  | none => simp
  | some blobs => exact Dict.get?_erase _ _ _

/-- Folding makes no index. -/
theorem applyEntries_none (entries : List IndexEntry) : ∀ {m : IndexManager},
    entries.forM applyEntry m = .ok () m' → m.byCls.get? c = none → m'.byCls.get? c = none := by
  induction entries with
  | nil =>
      intro m hrun hno
      cases hrun
      exact hno
  | cons e entries ih =>
      intro m hrun hno
      rw [forM_cons_run] at hrun
      rcases bind_ok_iff.mp hrun with ⟨_, m₁, hone, hrest⟩
      refine ih hrest ?_
      rcases applyEntry_ok hone with ⟨-, rfl⟩ | ⟨ci, ci', hci, -, rfl⟩
      · exact hno
      · refine (Dict.get?_set_ne _ _ fun hc => ?_).trans hno
        rw [← hc, hno] at hci
        cases hci

theorem applyDeletes_none (deletes : List (Nat × String)) : ∀ {m : IndexManager},
    m.byCls.get? c = none → (m.applyDeletes deletes).byCls.get? c = none := by
  induction deletes with
  | nil => exact fun hno => hno
  | cons d deletes ih =>
      intro m hno
      refine ih ?_
      unfold applyDelete
      split
      · exact hno
      · rename_i ci hci
        refine (Dict.get?_set_ne _ _ fun hc => ?_).trans hno
        rw [← hc, hno] at hci
        cases hci

/-- Dropping deleted entities looks at the indexes of the classes only. -/
theorem applyDeletes_frame (deletes : List (Nat × String)) : ∀ {m m' : IndexManager},
    m'.byCls = m.byCls → m'.cacheBlobs = m.cacheBlobs →
      (m'.applyDeletes deletes).byCls = (m.applyDeletes deletes).byCls ∧
        (m'.applyDeletes deletes).cacheBlobs = (m.applyDeletes deletes).cacheBlobs := by
  induction deletes with
  | nil => exact fun hcls hblobs => ⟨hcls, hblobs⟩
  | cons d deletes ih =>
      intro m m' hcls hblobs
      unfold applyDeletes at ih ⊢
      rw [List.foldl_cons, List.foldl_cons]
      refine ih ?_ ?_
      · unfold applyDelete
        rw [hcls]
        split
        · exact hcls
        · unfold IndexManager.setCls
          rw [hcls]
      · unfold applyDelete
        rw [hcls]
        split
        · unfold invalidateStaleBlob
          rw [hblobs]
        · exact hblobs

/-- A blob that survives the entries of a commit is of a class without any. -/
theorem applyEntries_unbuilt {blob : IndexBlob} (entries : List IndexEntry) :
    ∀ {m : IndexManager}, entries.forM applyEntry m = .ok () m' → m'.byCls.get? c = none →
      m'.blobOf c = some blob →
      m.byCls.get? c = none ∧ m.blobOf c = some blob ∧ ∀ e ∈ entries, e.2.1 ≠ c := by
  induction entries with
  | nil =>
      intro m hrun hno hblob
      cases hrun
      exact ⟨hno, hblob, fun e he => absurd he List.not_mem_nil⟩
  | cons e entries ih =>
      intro m hrun hno hblob
      rw [forM_cons_run] at hrun
      rcases bind_ok_iff.mp hrun with ⟨_, m₁, hone, hrest⟩
      rcases ih hrest hno hblob with ⟨hno₁, hblob₁, hothers⟩
      rcases applyEntry_ok hone with ⟨-, rfl⟩ | ⟨ci, ci', -, -, rfl⟩
      · rw [blobOf_invalidate] at hblob₁
        split at hblob₁
        · cases hblob₁
        · rename_i hne
          refine ⟨hno₁, hblob₁, fun e' he => ?_⟩
          rcases List.mem_cons.mp he with rfl | he
          · exact fun heq => hne heq.symm
          · exact hothers e' he
      · rw [IndexManager.setCls, Dict.get?_set] at hno₁
        split at hno₁
        · cases hno₁
        · rename_i hne
          refine ⟨hno₁, hblob₁, fun e' he => ?_⟩
          rcases List.mem_cons.mp he with rfl | he
          · exact fun heq => hne heq.symm
          · exact hothers e' he

theorem applyDeletes_unbuilt {blob : IndexBlob} (deletes : List (Nat × String)) :
    ∀ {m : IndexManager}, (m.applyDeletes deletes).byCls.get? c = none →
      (m.applyDeletes deletes).blobOf c = some blob →
      m.byCls.get? c = none ∧ m.blobOf c = some blob ∧ ∀ d ∈ deletes, d.2 ≠ c := by
  induction deletes with
  | nil => exact fun hno hblob => ⟨hno, hblob, fun d hd => absurd hd List.not_mem_nil⟩
  | cons d deletes ih =>
      intro m hno hblob
      rcases ih (m := m.applyDelete d) hno hblob with ⟨hno₁, hblob₁, hothers⟩
      unfold applyDelete at hno₁ hblob₁
      cases hcls : m.byCls.get? d.2 with
      | none =>
          rw [hcls] at hno₁ hblob₁
          dsimp only at hno₁ hblob₁
          rw [blobOf_invalidate] at hblob₁
          split at hblob₁
          · cases hblob₁
          · rename_i hne
            refine ⟨hno₁, hblob₁, fun d' hd => ?_⟩
            rcases List.mem_cons.mp hd with rfl | hd
            · exact fun heq => hne heq.symm
            · exact hothers d' hd
      | some ci =>
          rw [hcls] at hno₁ hblob₁
          dsimp only at hno₁ hblob₁
          rw [IndexManager.setCls, Dict.get?_set] at hno₁
          split at hno₁
          · cases hno₁
          · rename_i hne
            refine ⟨hno₁, hblob₁, fun d' hd => ?_⟩
            rcases List.mem_cons.mp hd with rfl | hd
            · exact fun heq => hne heq.symm
            · exact hothers d' hd

end IndexManager

end DataCrystal
