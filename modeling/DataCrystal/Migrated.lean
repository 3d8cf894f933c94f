import Mathlib.Data.List.Find
import DataCrystal.Migration
import DataCrystal.Verifying
import DataCrystal.RoundTrip

/-!
# What a Migration Leaves

A migration keeps the value of a record as far as the codec does: a record that is written
hydrates to what the values it showed are read back as, and every other one to what it did,
however the shapes of its class have come about. Values that were decoded from the record come
back as they were, while those of a default factory or of a function on the old record may
not. Whether the migration gets anywhere is another matter. A record is written under the last
shape of the lineage, while the first shape with the live fields is the current one. Where
these are two, as after a class has lost a field again, a record that is written is stale, and
every migration writes it once more.

The operations of a migration are followed through one relation (`Rewrites`): which records
they wrote, what these hydrate to, and that a written record is away from the current shape
exactly if the lineage is ambiguous. Loads, commits, portions, classes and the whole migration
each have their lemma about it.

## Main definitions

* `Written`: What writing one record does to the shapes.
* `Away`: A record is not under the current shape.
* `Rewrites`: What a number of operations did to the records and the shapes.
* `Progress`: How far a migration has come.

## Theorems

* `fillEntity_own`: Under its own shape a record is taken as it is.
* `commit_spec`, `migrateChunk_spec`, `migrateType_spec`: The operations.
* `migrate_progress`: The whole migration.
* `preserved_iff`: When the records are preserved, in terms of what was written.
* `migrates_well_iff`: When a migration leaves nothing to do for another one.
-/

namespace DataCrystal

namespace Evolution

section OwnShape

variable {V : Type} {cl : Classes V} {ti : LiveClass V}

theorem position_getElem {persisted : List String} (hnd : persisted.Nodup) {i : Nat}
    (hi : i < persisted.length) : position persisted persisted[i] = some i := by
  refine (Dict.get?_ofList_of_nodup _ ?_ _ i).mpr ?_
  · rwa [List.zipIdx_map_fst]
  · exact List.mem_zipIdx_iff_getElem?.mpr (List.getElem?_eq_getElem hi)

/-- Under its own shape a record of a class is taken as it is. -/
theorem fillEntity_own {values : List V} (hlen : values.length = ti.specs.length) :
    fillEntity cl.process ti ti.fieldNames (.ok (.list values)) = .ok values := by
  have hfields : ti.fieldNames.length = ti.specs.length := List.length_map _
  have hspecs : ti.specs.zipIdx.length = ti.specs.length := List.length_zipIdx
  -- The plan reads every field from the column of its own place.
  have hplan : hydrationPlan cl.process.legacyFills ti ti.fieldNames =
      .ok (ti.specs.zipIdx.map fun e => ⟨e.1, some e.2, none⟩) := by
    refine (except_mapM_ok_iff _ _).mpr (List.forall₂_iff_get.mpr ⟨?_, ?_⟩)
    · rw [List.length_map, hspecs]
    · intro i h₁ h₂
      have hi : i < ti.fieldNames.length := by omega
      have hget : ti.fieldNames[i] = ti.specs[i].name := List.getElem_map _
      have hposition : position ti.fieldNames ti.fieldNames[i] = some i :=
        position_getElem ti.names_nodup hi
      simp only [List.get_eq_getElem, List.getElem_map, List.getElem_zipIdx, Nat.zero_add]
      rw [planField, ← hget, hposition]
      rfl
  have hread : (ti.specs.zipIdx.map fun e => (⟨e.1, some e.2, none⟩ : PlanEntry V)).mapM
      (fillField ti.fieldNames (.list values)) = .ok values := by
    refine (except_mapM_ok_iff _ _).mpr (List.forall₂_iff_get.mpr ⟨?_, ?_⟩)
    · rw [List.length_map, hspecs, hlen]
    · intro i h₁ h₂
      simp only [List.get_eq_getElem, List.getElem_map, List.getElem_zipIdx, Nat.zero_add]
      simp only [fillField, Unpacked.list, List.getElem?_eq_getElem h₂]
  have hwidth : values.length = ti.fieldNames.length := hlen.trans hfields.symm
  refine except_bind_ok_iff.mpr ⟨_, hplan, except_bind_ok_iff.mpr ⟨.list values, rfl,
    except_bind_ok_iff.mpr ⟨_, rfl, ?_⟩⟩⟩
  simpa [hwidth] using hread

/-- What a record of a class is decoded to has a value for every field. -/
theorem fillEntity_length {persisted : List String} {stored : Stored V} {values : List V}
    (h : fillEntity cl.process ti persisted stored = .ok values) :
    values.length = ti.specs.length := by
  rw [fillEntity] at h
  rcases except_bind_ok_iff.mp h with ⟨plan, hplan, h⟩
  rcases except_bind_ok_iff.mp h with ⟨old, hold, h⟩
  rcases except_bind_ok_iff.mp h with ⟨width, hlen, h⟩
  have hread : plan.mapM (fillField persisted old) = .ok values := by
    by_cases hwidth : width = persisted.length
    · simpa [hwidth] using h
    · simp [hwidth] at h
      cases h
  exact ((except_mapM_ok_iff _ _).mp hread).length_eq.symm.trans
    ((except_mapM_ok_iff _ _).mp hplan).length_eq.symm

/-- What the values of an instance are read back as has a value for every field. -/
theorem recode_length {values kept : List V} (h : cl.recode ti values = .ok kept)
    (hlen : values.length = ti.specs.length) : kept.length = ti.specs.length := by
  rw [← ((except_mapM_ok_iff _ _).mp h).length_eq, List.length_zip, hlen, min_self]

end OwnShape

namespace TypedStore

variable {V : Type} {cl : Classes V} {s s' : TypedStore V}

section Lineages

theorem lineage_eq {t : String} {cids : List ℤ} (h : s.cidsByTypename.get? t = some cids) :
    s.lineage t = cids := by
  rw [lineage, h]
  rfl

theorem mem_keys_of_mem_lineage {t : String} {cid : ℤ} (h : cid ∈ s.lineage t) :
    t ∈ s.cidsByTypename.keys := by
  rw [Dict.mem_keys_iff]
  cases hget : s.cidsByTypename.get? t with
  | some cids => exact ⟨cids, rfl⟩
  | none =>
      rw [lineage, hget] at h
      exact absurd h List.not_mem_nil

/-- The class of a shape is the one whose lineage it is in. -/
theorem typenameByCid_eq_some_iff
    (hdisjoint : ∀ t t' cid, cid ∈ s.lineage t → cid ∈ s.lineage t' → t = t') {t : String}
    {cid : ℤ} : s.typenameByCid cid = some t ↔ cid ∈ s.lineage t := by
  have hentry : ∀ e ∈ s.cidsByTypename.entries, cid ∈ e.2 → cid ∈ s.lineage e.1 := by
    intro e he hmem
    rwa [lineage_eq ((Dict.get?_eq_some_iff _ _ _).mpr he)]
  constructor
  · intro h
    rcases Option.map_eq_some_iff.mp h with ⟨e, hfind, rfl⟩
    have hhit : e.2.contains cid = true := by simpa using List.find?_some hfind
    exact hentry e (List.mem_of_find?_eq_some hfind) (List.contains_iff_mem.mp hhit)
  · intro h
    rcases (Dict.mem_keys_iff _ _).mp (mem_keys_of_mem_lineage h) with ⟨cids, hcids⟩
    have hmem := (Dict.get?_eq_some_iff _ _ _).mp hcids
    rw [lineage_eq hcids] at h
    cases hfind : s.cidsByTypename.entries.find? fun e => e.2.contains cid with
    | none =>
        refine absurd (List.find?_eq_none.mp hfind _ hmem) (not_not.mpr ?_)
        exact List.contains_iff_mem.mpr h
    | some e =>
        have hhit : e.2.contains cid = true := by simpa using List.find?_some hfind
        have he := hentry e (List.mem_of_find?_eq_some hfind) (List.contains_iff_mem.mp hhit)
        rw [typenameByCid, hfind, Option.map_some]
        rw [← lineage_eq hcids] at h
        rw [hdisjoint e.1 t cid he h]

end Lineages

section Hydration

/-- What a record of a live class hydrates to. -/
theorem hydrated_eq (hc : s.Coherent cl) {oid cid : ℤ} {stored : Stored V} {t : String}
    {ti : LiveClass V} (hget : s.objects.get? oid = some (cid, stored)) (hcid : cid ∈ s.lineage t)
    (hti : cl.types t = some ti) :
    s.hydrated cl oid = (fillEntity cl.process ti (s.persistedFields cid) stored).map (t, ·) := by
  unfold hydrated
  simp only [hget, (typenameByCid_eq_some_iff hc.disjoint).mpr hcid, hti]
  cases fillEntity cl.process ti (s.persistedFields cid) stored <;> rfl

/-- What hydrates is a record of a live class. -/
theorem hydrated_ok (hc : s.Coherent cl) {oid : ℤ} {t : String} {values : List V}
    (h : s.hydrated cl oid = .ok (t, values)) :
    s.IsRecord t oid ∧ ∃ ti, cl.types t = some ti ∧ values.length = ti.specs.length := by
  unfold hydrated at h
  cases hget : s.objects.get? oid with
  | none => rw [hget] at h; cases h
  | some record =>
      cases hname : s.typenameByCid record.1 with
      | none => simp only [hget, hname] at h; cases h
      | some t' =>
          cases hti : cl.types t' with
          | none => simp only [hget, hname, hti] at h; cases h
          | some ti =>
              simp only [hget, hname, hti] at h
              rcases except_bind_ok_iff.mp h with ⟨values', hfill, h⟩
              cases h
              exact ⟨⟨record.1, record.2, hget, (typenameByCid_eq_some_iff hc.disjoint).mp hname⟩, ti, hti,
                fillEntity_length hfill⟩

/-- Records hydrate alike where the record, its shape and the class of the shape are the
    same. -/
theorem hydrated_congr {oid : ℤ} (hobj : s'.objects.get? oid = s.objects.get? oid)
    (hcid : ∀ cid stored, s.objects.get? oid = some (cid, stored) →
      s'.typenameByCid cid = s.typenameByCid cid ∧
        s'.persistedFields cid = s.persistedFields cid) :
    s'.hydrated cl oid = s.hydrated cl oid := by
  unfold hydrated
  rw [hobj]
  cases hget : s.objects.get? oid with
  | none => rfl
  | some record =>
      rcases hcid record.1 record.2 hget with ⟨hname, hfields⟩
      simp only [hname, hfields]

end Hydration

theorem belongs_unique (hc : s.Coherent cl) {t t' : String} {o : ℤ} (h : s.Belongs t o)
    (h' : s.Belongs t' o) : t = t' := by
  have hrecords : s.IsRecord t o → s.IsRecord t' o → t = t' := by
    rintro ⟨c, stored, hget, hmem⟩ ⟨c', stored', hget', hmem'⟩
    cases hget.symm.trans hget'
    exact hc.disjoint t t' c hmem hmem'
  -- An instance of a record is of the class of the record.
  have hlive : ∀ {t₁ t₂ values}, s.IsRecord t₁ o → s.live.get? o = some (t₂, values) →
      s.IsRecord t₂ o := by
    rintro t₁ t₂ values ⟨c, stored, hget, -⟩ hlive
    rcases hc.liveRecord o t₂ values hlive with hrec | ⟨-, hnone⟩
    · exact hrec
    · cases hget.symm.trans hnone
  rcases h with hrec | ⟨values, hget⟩
  · rcases h' with hrec' | ⟨values', hget'⟩
    · exact hrecords hrec hrec'
    · exact hrecords hrec (hlive hrec hget')
  · rcases h' with hrec' | ⟨values', hget'⟩
    · exact hrecords (hlive hrec' hget) hrec'
    · cases hget.symm.trans hget'
      rfl

section Writes

/-- What writing the record of an instance does: the record is under the last shape of the
    lineage, which has the live fields and is a new one only if the last one had others. -/
structure Written (s s' : TypedStore V) (oid : ℤ) (t : String) (ti : LiveClass V)
    (kept : List V) (cid : ℤ) : Prop where
  objects : s'.objects = s.objects.set oid (cid, .ok (.list kept))
  live : s'.live = s.live
  dirty : s'.dirty = s.dirty
  others : ∀ t', t' ≠ t → s'.lineage t' = s.lineage t'
  fields : ∀ c < s.nextCid, s'.persistedFields c = s.persistedFields c
  last : (s'.lineage t).getLast? = some cid
  shape : s'.persistedFields cid = ti.fieldNames
  grown : s'.lineage t = s.lineage t ∧ s'.nextCid = s.nextCid ∨
    s'.lineage t = s.lineage t ++ [s.nextCid] ∧ s'.nextCid = s.nextCid + 1 ∧
      ∀ c, (s.lineage t).getLast? = some c → s.persistedFields c ≠ ti.fieldNames

theorem lineage_set {t t' : String} {cids : List ℤ}
    (h : s'.cidsByTypename = s.cidsByTypename.set t cids) :
    s'.lineage t' = if t' = t then cids else s.lineage t' := by
  rw [lineage, lineage, h, Dict.get?_set]
  split <;> rfl

theorem writeRecord_written {oid : ℤ} {t : String} {ti : LiveClass V} {values : List V}
    (hlive : s.live.get? oid = some (t, values)) (hti : cl.types t = some ti)
    (h : s.writeRecord cl oid = .ok s') :
    ∃ kept cid, cl.recode ti values = .ok kept ∧ Written s s' oid t ti kept cid := by
  simp only [writeRecord, hlive, hti, cidFor] at h
  rcases except_bind_ok_iff.mp h with ⟨kept, hkept, h⟩
  refine ⟨kept, ?_⟩
  cases hlast : ((s.lineage t).getLast?).filter fun cid => s.persistedFields cid = ti.fieldNames with
  -- The last shape has the fields: the record goes under it.
  | some cid =>
      rcases Option.filter_eq_some_iff.mp hlast with ⟨hget, hfields⟩
      rw [hlast] at h
      cases h
      exact ⟨cid, hkept, rfl, rfl, rfl, fun _ _ => rfl, fun _ _ => rfl, hget,
        of_decide_eq_true hfields, .inl ⟨rfl, rfl⟩⟩
  -- A new shape at the end of the lineage, under a fresh number.
  | none =>
      have hself : ∀ t' (objects : Dict ℤ (ℤ × Stored V)),
          lineage { s with
            cidsByTypename := s.cidsByTypename.set t (s.lineage t ++ [s.nextCid])
            persistedFields := Function.update s.persistedFields s.nextCid ti.fieldNames
            nextCid := s.nextCid + 1, objects := objects } t' =
          if t' = t then s.lineage t ++ [s.nextCid] else s.lineage t' :=
        fun t' objects => lineage_set rfl
      rw [hlast] at h
      cases h
      refine ⟨s.nextCid, hkept, rfl, rfl, rfl, ?_, ?_, ?_, Function.update_self _ _ _,
        .inr ⟨?_, rfl, ?_⟩⟩
      · intro t' hne
        rw [hself, if_neg hne]
      · intro c hlt
        exact Function.update_of_ne hlt.ne _ _
      · rw [hself, if_pos rfl, List.getLast?_concat]
      · rw [hself, if_pos rfl]
      · intro c hget hfields
        rw [hget] at hlast
        simp [Option.filter, hfields] at hlast

namespace Written

variable {oid cid : ℤ} {t : String} {ti : LiveClass V} {values kept : List V}

theorem record (hw : Written s s' oid t ti kept cid) :
    s'.objects.get? oid = some (cid, .ok (.list kept)) := by
  rw [hw.objects, Dict.get?_set_self]

theorem other (hw : Written s s' oid t ti kept cid) {o : ℤ} (hne : o ≠ oid) :
    s'.objects.get? o = s.objects.get? o := by
  rw [hw.objects, Dict.get?_set_ne _ _ hne]

theorem mem_lineage (hw : Written s s' oid t ti kept cid) : cid ∈ s'.lineage t :=
  List.mem_of_getLast? hw.last

/-- A lineage has its shapes, and the one a record of the class is written under. -/
theorem mem_lineage_iff (hw : Written s s' oid t ti kept cid) {t' : String} {c : ℤ} :
    c ∈ s'.lineage t' ↔ c ∈ s.lineage t' ∨ t' = t ∧ c = cid := by
  by_cases hne : t' = t
  · subst hne
    have hcid := hw.mem_lineage
    rcases hw.grown with ⟨hsame, -⟩ | ⟨hmore, -, -⟩
    · rw [hsame] at hcid ⊢
      constructor
      · exact Or.inl
      · rintro (h | ⟨-, rfl⟩)
        · exact h
        · exact hcid
    · have hlast := hw.last
      rw [hmore, List.getLast?_concat, Option.some_inj] at hlast
      rw [hmore, List.mem_append, List.mem_singleton, hlast]
      simp
  · rw [hw.others t' hne]
    simp [hne]

theorem cid_spec (hw : Written s s' oid t ti kept cid) (hc : s.Coherent cl) :
    cid < s'.nextCid ∧ s.nextCid ≤ s'.nextCid ∧ (cid ∈ s.lineage t ∨ s.nextCid ≤ cid) := by
  have hcid := hw.mem_lineage
  rcases hw.grown with ⟨hsame, hnext⟩ | ⟨hmore, hnext, -⟩
  · rw [hsame] at hcid
    have hlt := hc.fresh t cid hcid
    exact ⟨by omega, by omega, .inl hcid⟩
  · have hlast := hw.last
    rw [hmore, List.getLast?_concat, Option.some_inj] at hlast
    exact ⟨by omega, by omega, .inr (by omega)⟩

/-- The shapes there were keep their classes. -/
theorem mem_lineage_old (hw : Written s s' oid t ti kept cid) (hc : s.Coherent cl)
    {t' : String} {c : ℤ} (hlt : c < s.nextCid) : c ∈ s'.lineage t' ↔ c ∈ s.lineage t' := by
  rw [hw.mem_lineage_iff]
  constructor
  · rintro (h | ⟨rfl, rfl⟩)
    · exact h
    · rcases (hw.cid_spec hc).2.2 with h | h
      · exact h
      · omega
  · exact Or.inl

theorem disjoint (hw : Written s s' oid t ti kept cid) (hc : s.Coherent cl) (t₁ t₂ : String)
    (c : ℤ) (h₁ : c ∈ s'.lineage t₁) (h₂ : c ∈ s'.lineage t₂) : t₁ = t₂ := by
  by_cases hlt : c < s.nextCid
  · rw [hw.mem_lineage_old hc hlt] at h₁ h₂
    exact hc.disjoint t₁ t₂ c h₁ h₂
  · have hnew : ∀ {t'}, c ∈ s'.lineage t' → t' = t := by
      intro t' h
      rcases hw.mem_lineage_iff.mp h with h | ⟨h, -⟩
      · exact absurd (hc.fresh t' c h) hlt
      · exact h
    rw [hnew h₁, hnew h₂]

/-- Every other record hydrates as before. -/
theorem hydrated_ne (hw : Written s s' oid t ti kept cid) (hc : s.Coherent cl) {o : ℤ}
    (hne : o ≠ oid) : s'.hydrated cl o = s.hydrated cl o := by
  refine hydrated_congr (hw.other hne) fun c stored hget => ?_
  have hlt := hc.records o c stored hget
  refine ⟨Option.ext fun t' => ?_, hw.fields c hlt⟩
  rw [typenameByCid_eq_some_iff (hw.disjoint hc), typenameByCid_eq_some_iff hc.disjoint,
    hw.mem_lineage_old hc hlt]

/-- A class has the records it had, and the written one. -/
theorem isRecord_iff (hw : Written s s' oid t ti kept cid) (hc : s.Coherent cl)
    (hlive : s.live.get? oid = some (t, values)) {t' : String} {o : ℤ} :
    s'.IsRecord t' o ↔ s.IsRecord t' o ∨ o = oid ∧ t' = t := by
  by_cases hne : o = oid
  · subst hne
    constructor
    · rintro ⟨c, stored, hget, hmem⟩
      rw [hw.record] at hget
      cases hget
      exact .inr ⟨rfl, hw.disjoint hc t' t cid hmem hw.mem_lineage⟩
    · intro h
      have heq : t' = t := by
        rcases h with h | ⟨-, h⟩
        · exact belongs_unique hc (.inl h) (.inr ⟨values, hlive⟩)
        · exact h
      rw [heq]
      exact ⟨cid, .ok (.list kept), hw.record, hw.mem_lineage⟩
  · simp only [hne, false_and, or_false]
    constructor
    · rintro ⟨c, stored, hget, hmem⟩
      rw [hw.other hne] at hget
      exact ⟨c, stored, hget, (hw.mem_lineage_old hc (hc.records o c stored hget)).mp hmem⟩
    · rintro ⟨c, stored, hget, hmem⟩
      exact ⟨c, stored, (hw.other hne).trans hget, hw.mem_lineage_iff.mpr (.inl hmem)⟩

theorem belongs_iff (hw : Written s s' oid t ti kept cid) (hc : s.Coherent cl)
    (hlive : s.live.get? oid = some (t, values)) {t' : String} {o : ℤ} :
    s'.Belongs t' o ↔ s.Belongs t' o := by
  rw [Belongs, Belongs, hw.isRecord_iff hc hlive, hw.live]
  constructor
  · rintro ((h | ⟨rfl, rfl⟩) | h)
    · exact .inl h
    · exact .inr ⟨values, hlive⟩
    · exact .inr h
  · exact Or.imp_left Or.inl

theorem coherent (hw : Written s s' oid t ti kept cid) (hc : s.Coherent cl)
    (hlive : s.live.get? oid = some (t, values)) (hdirty : oid ∈ s.dirty) : s'.Coherent cl where
  disjoint := hw.disjoint hc
  -- Writing one record gives its class at most one CID more, and no other class any.
  nodup t' := by
    by_cases hne : t' = t
    · subst hne
      rcases hw.grown with ⟨hsame, -⟩ | ⟨hmore, -, -⟩
      · rw [hsame]
        exact hc.nodup t'
      · rw [hmore, List.nodup_append_comm, List.singleton_append, List.nodup_cons]
        exact ⟨fun h => absurd (hc.fresh t' _ h) (lt_irrefl _), hc.nodup t'⟩
    · rw [hw.others t' hne]
      exact hc.nodup t'
  fresh t' c h := by
    rcases hw.cid_spec hc with ⟨hlt, hle, -⟩
    rcases hw.mem_lineage_iff.mp h with h | ⟨-, rfl⟩
    · exact lt_of_lt_of_le (hc.fresh t' c h) hle
    · exact hlt
  records o c stored hget := by
    rcases hw.cid_spec hc with ⟨hlt, hle, -⟩
    by_cases hne : o = oid
    · subst hne
      rw [hw.record] at hget
      cases hget
      exact hlt
    · rw [hw.other hne] at hget
      exact lt_of_lt_of_le (hc.records o c stored hget) hle
  liveClass o t' values' h := hc.liveClass o t' values' (by rwa [← hw.live])
  liveRecord o t' values' h := by
    rw [hw.live] at h
    rcases hc.liveRecord o t' values' h with hrec | ⟨hdirty', hnone⟩
    · exact .inl ((hw.isRecord_iff hc hlive).mpr (.inl hrec))
    · by_cases hne : o = oid
      · subst hne
        cases hlive.symm.trans h
        exact .inl ((hw.isRecord_iff hc hlive).mpr (.inr ⟨rfl, rfl⟩))
      · exact .inr ⟨by rwa [hw.dirty], (hw.other hne).trans hnone⟩
  clean o t' values' h hclean := by
    rw [hw.dirty] at hclean
    have hne : o ≠ oid := by
      intro heq
      rw [heq] at hclean
      exact hclean hdirty
    rw [hw.hydrated_ne hc hne]
    exact hc.clean o t' values' (by rwa [← hw.live]) hclean
  buffered o h := by
    rw [hw.dirty] at h
    rw [hw.live]
    exact hc.buffered o h

theorem hydrated_self (hw : Written s s' oid t ti kept cid) (hc' : s'.Coherent cl)
    (hti : cl.types t = some ti) (hlen : kept.length = ti.specs.length) :
    s'.hydrated cl oid = .ok (t, kept) := by
  rw [hydrated_eq hc' hw.record hw.mem_lineage hti, hw.shape, fillEntity_own hlen]
  rfl

end Written

end Writes

/-- The record of a class is not under the shape that counts as current, which is
    the first one of the lineage with the live fields. -/
def Away (s : TypedStore V) (t : String) (ti : LiveClass V) (oid : ℤ) : Prop :=
  ∃ cid stored, s.objects.get? oid = some (cid, stored) ∧ cid ∈ s.lineage t ∧
    s.current t ti ≠ some cid

section Current

variable {t : String} {ti : LiveClass V}

theorem mem_scan_iff {cid oid : ℤ} :
    oid ∈ s.scan cid ↔ ∃ stored, s.objects.get? oid = some (cid, stored) := by
  rw [scan, List.mem_insertionSort]
  constructor
  · intro h
    rcases List.mem_map.mp h with ⟨⟨o, c, stored⟩, he, rfl⟩
    rcases List.mem_filter.mp he with ⟨hmem, hcid⟩
    cases of_decide_eq_true hcid
    exact ⟨stored, (Dict.get?_eq_some_iff _ _ _).mpr hmem⟩
  · rintro ⟨stored, hget⟩
    exact List.mem_map.mpr ⟨(oid, cid, stored), List.mem_filter.mpr
      ⟨(Dict.get?_eq_some_iff _ _ _).mp hget, decide_eq_true rfl⟩, rfl⟩

theorem mem_staleOids_iff {oid : ℤ} : oid ∈ s.staleOids t ti ↔ s.Away t ti oid := by
  rw [staleOids, List.mem_flatMap]
  constructor
  · rintro ⟨cid, hcid, hscan⟩
    rcases List.mem_filter.mp hcid with ⟨hmem, hne⟩
    rcases mem_scan_iff.mp hscan with ⟨stored, hget⟩
    exact ⟨cid, stored, hget, hmem, of_decide_eq_true hne⟩
  · rintro ⟨cid, stored, hget, hmem, hne⟩
    exact ⟨cid, List.mem_filter.mpr ⟨hmem, decide_eq_true hne⟩, mem_scan_iff.mpr ⟨stored, hget⟩⟩

theorem Away.isRecord {oid : ℤ} (h : s.Away t ti oid) : s.IsRecord t oid := by
  rcases h with ⟨cid, stored, hget, hmem, -⟩
  exact ⟨cid, stored, hget, hmem⟩

theorem current_spec {cid : ℤ} (h : s.current t ti = some cid) :
    cid ∈ s.lineage t ∧ s.persistedFields cid = ti.fieldNames :=
  ⟨List.mem_of_find?_eq_some h, by simpa using List.find?_some h⟩

theorem exists_current {cid : ℤ} (hmem : cid ∈ s.lineage t)
    (hfields : s.persistedFields cid = ti.fieldNames) : ∃ c, s.current t ti = some c := by
  cases h : s.current t ti with
  | some c => exact ⟨c, rfl⟩
  | none => exact absurd (decide_eq_true hfields) (List.find?_eq_none.mp h cid hmem)

/-- The last shape, where it has the live fields, counts as current if no other shape has
    them. -/
theorem current_last_iff (hc : s.Coherent cl) {cid : ℤ} (hlast : (s.lineage t).getLast? = some cid)
    (hfields : s.persistedFields cid = ti.fieldNames) :
    s.current t ti = some cid ↔ s.Unambiguous t ti := by
  constructor
  · intro hcur c hmem hc'
    -- A shape in front of the last one would be found first.
    rcases List.find?_eq_some_iff_append.mp hcur with ⟨-, pre, post, hsplit, hpre⟩
    have hnd := hc.nodup t
    rw [hsplit] at hlast hmem hnd ⊢
    have hpost : post = [] := by
      by_contra hne
      rw [List.getLast?_append, List.getLast?_cons, List.getLast?_eq_some_getLast hne] at hlast
      have heq : post.getLast hne = cid := by simpa using hlast
      have hcid : cid ∈ post := heq ▸ List.getLast_mem hne
      exact (List.nodup_cons.mp (List.nodup_append.mp hnd).2.1).1 hcid
    subst hpost
    rcases List.mem_append.mp hmem with h | h
    · have := hpre c h
      simp [hc'] at this
    · rw [List.mem_singleton.mp h]
      exact hlast
  · intro hu
    rcases exists_current (List.mem_of_getLast? hlast) hfields with ⟨c, hcur⟩
    rcases current_spec hcur with ⟨hmem, hc'⟩
    have := hu c hmem hc'
    rw [hlast, Option.some_inj] at this
    rw [hcur, this]

namespace Written

variable {oid cid : ℤ} {kept : List V} {t' : String} {ti' : LiveClass V}

/-- The current shape stays the current one. -/
theorem current_kept (hw : Written s s' oid t ti kept cid) (hc : s.Coherent cl) {c : ℤ}
    (h : s.current t' ti' = some c) : s'.current t' ti' = some c := by
  have hsame : (s.lineage t').find? (fun c => s'.persistedFields c = ti'.fieldNames) = some c := by
    rw [← h, current]
    exact List.find?_congr fun c hmem => by rw [hw.fields c (hc.fresh t' c hmem)]
  by_cases hne : t' = t
  · subst hne
    rcases hw.grown with ⟨heq, -⟩ | ⟨hmore, -, -⟩
    · rw [current, heq, hsame]
    · rw [current, hmore, List.find?_append, hsame]
      rfl
  · rw [current, hw.others t' hne, hsame]

/-- Writing neither makes nor resolves an ambiguity. -/
theorem unambiguous_iff (hw : Written s s' oid t ti kept cid) (hc : s.Coherent cl)
    (hti : cl.types t = some ti) (hti' : cl.types t' = some ti') :
    s'.Unambiguous t' ti' ↔ s.Unambiguous t' ti' := by
  have hfields : ∀ c ∈ s.lineage t', s'.persistedFields c = s.persistedFields c :=
    fun c hmem => hw.fields c (hc.fresh t' c hmem)
  by_cases hne : t' = t
  · subst hne
    cases hti.symm.trans hti'
    rcases hw.grown with ⟨heq, -⟩ | ⟨hmore, -, hother⟩
    · rw [Unambiguous, Unambiguous, heq]
      exact forall₂_congr fun c hmem => by rw [hfields c hmem]
    · -- The last shape has other fields, so there is an ambiguity if any shape has them.
      have hnone : s.Unambiguous t' ti ↔ ∀ c ∈ s.lineage t', s.persistedFields c ≠ ti.fieldNames :=
        ⟨fun hu c hmem h => hother c (hu c hmem h) h, fun h c hmem hc' => absurd hc' (h c hmem)⟩
      rw [hnone, Unambiguous, hmore]
      constructor
      · intro hu c hmem h
        have hlast := hu c (List.mem_append_left _ hmem) ((hfields c hmem).trans h)
        rw [List.getLast?_concat, Option.some_inj] at hlast
        exact absurd (hc.fresh t' c hmem) (by omega)
      · intro h c hmem hc'
        rcases List.mem_append.mp hmem with hold | hnew
        · exact absurd ((hfields c hold).symm.trans hc') (h c hold)
        · rw [List.getLast?_concat, List.mem_singleton.mp hnew]
  · rw [Unambiguous, Unambiguous, hw.others t' hne]
    exact forall₂_congr fun c hmem => by rw [hfields c hmem]

/-- The written record is away from the current shape exactly in an ambiguous lineage. -/
theorem away_self (hw : Written s s' oid t ti kept cid) (hc' : s'.Coherent cl) :
    s'.Away t ti oid ↔ ¬s'.Unambiguous t ti := by
  rw [← current_last_iff hc' hw.last hw.shape]
  constructor
  · rintro ⟨c, stored, hget, -, hne⟩
    rw [hw.record] at hget
    cases hget
    exact hne
  · exact fun hne => ⟨cid, .ok (.list kept), hw.record, hw.mem_lineage, hne⟩

/-- Every other record is as it was. -/
theorem away_ne (hw : Written s s' oid t ti kept cid) (hc : s.Coherent cl) {o : ℤ}
    (hne : o ≠ oid) : s'.Away t' ti' o ↔ s.Away t' ti' o := by
  constructor
  · rintro ⟨c, stored, hget, hmem, hcur⟩
    rw [hw.other hne] at hget
    exact ⟨c, stored, hget, (hw.mem_lineage_old hc (hc.records o c stored hget)).mp hmem,
      fun h => hcur (hw.current_kept hc h)⟩
  · rintro ⟨c, stored, hget, hmem, hcur⟩
    refine ⟨c, stored, (hw.other hne).trans hget, hw.mem_lineage_iff.mpr (.inl hmem), fun h => ?_⟩
    have hfields := (current_spec h).2
    rw [hw.fields c (hc.fresh t' c hmem)] at hfields
    rcases exists_current hmem hfields with ⟨c', hcur'⟩
    rw [hw.current_kept hc hcur'] at h
    cases h
    exact hcur hcur'

end Written

end Current

/-- What came of a number of operations that wrote the records `D`: every class has its
    records, which show what they showed; a written one hydrates to what this is read back as
    and is away from the current shape if its lineage is ambiguous, and any other one is as it
    was. -/
structure Rewrites (cl : Classes V) (D : ℤ → Prop) (s s' : TypedStore V) : Prop where
  isRecord : ∀ t o, s.IsRecord t o → s'.IsRecord t o
  belongs : ∀ t o, s'.Belongs t o ↔ s.Belongs t o
  shown : ∀ o, s'.shown cl o = s.shown cl o
  unambiguous : ∀ t ti, cl.types t = some ti → (s'.Unambiguous t ti ↔ s.Unambiguous t ti)
  written : ∀ t ti o, cl.types t = some ti → s.Belongs t o → D o →
    (s'.Away t ti o ↔ ¬s.Unambiguous t ti)
  kept : ∀ t ti o, ¬D o → (s'.Away t ti o ↔ s.Away t ti o)
  stored : ∀ t ti o, cl.types t = some ti → s.Belongs t o → D o → ∃ values kept,
    s.shown cl o = some (t, values) ∧ cl.recode ti values = .ok kept ∧
      s'.hydrated cl o = .ok (t, kept)
  unread : ∀ o, ¬D o → s'.hydrated cl o = s.hydrated cl o

namespace Rewrites

variable {D E : ℤ → Prop} {s'' : TypedStore V}

/-- Operations that leave the records and the shapes alone write nothing. -/
theorem of_same (hobj : s'.objects = s.objects) (hcids : s'.cidsByTypename = s.cidsByTypename)
    (hfields : s'.persistedFields = s.persistedFields)
    (hbelongs : ∀ t o, s'.Belongs t o ↔ s.Belongs t o)
    (hshown : ∀ o, s'.shown cl o = s.shown cl o) : Rewrites cl (fun _ => False) s s' := by
  have hlineage : s'.lineage = s.lineage := by
    funext t
    rw [lineage, lineage, hcids]
  have hcurrent : ∀ t ti, s'.current t ti = s.current t ti := by
    intro t ti
    rw [current, current, hlineage, hfields]
  refine ⟨fun t o => ?_, hbelongs, hshown, fun t ti _ => ?_, fun _ _ _ _ _ h => h.elim,
    fun t ti o _ => ?_, fun _ _ _ _ _ h => h.elim, fun o _ => ?_⟩
  · rw [IsRecord, IsRecord, hobj, hlineage]
    exact id
  · rw [Unambiguous, Unambiguous, hlineage, hfields]
  · rw [Away, Away, hobj, hlineage, hcurrent]
  · refine hydrated_congr (by rw [hobj]) fun cid _ _ => ⟨?_, by rw [hfields]⟩
    rw [typenameByCid, typenameByCid, hcids]

theorem refl : Rewrites cl (fun _ => False) s s := of_same rfl rfl rfl (fun _ _ => Iff.rfl) fun _ => rfl

theorem trans (h : Rewrites cl D s s') (h' : Rewrites cl E s' s'') :
    Rewrites cl (fun o => D o ∨ E o) s s'' where
  isRecord t o hrec := h'.isRecord t o (h.isRecord t o hrec)
  belongs t o := (h'.belongs t o).trans (h.belongs t o)
  shown o := (h'.shown o).trans (h.shown o)
  unambiguous t ti hti := (h'.unambiguous t ti hti).trans (h.unambiguous t ti hti)
  written t ti o hti hrec hor := by
    by_cases hE : E o
    · rw [h'.written t ti o hti ((h.belongs t o).mpr hrec) hE, h.unambiguous t ti hti]
    · rw [h'.kept t ti o hE, h.written t ti o hti hrec (hor.resolve_right hE)]
  kept t ti o hnor := by
    rw [h'.kept t ti o fun hE => hnor (.inr hE), h.kept t ti o fun hD => hnor (.inl hD)]
  stored t ti o hti hrec hor := by
    -- Written twice, a record has what was shown, and that is the same both times.
    by_cases hE : E o
    · rw [← h.shown o]
      exact h'.stored t ti o hti ((h.belongs t o).mpr hrec) hE
    · rw [h'.unread o hE]
      exact h.stored t ti o hti hrec (hor.resolve_right hE)
  unread o hnor := by
    rw [h'.unread o fun hE => hnor (.inr hE), h.unread o fun hD => hnor (.inl hD)]

theorem congr (h : Rewrites cl D s s') (hDE : ∀ o, E o ↔ D o) : Rewrites cl E s s' := by
  have heq : E = D := funext fun o => propext (hDE o)
  rwa [heq]

end Rewrites

section Operations

/-- An instance shows its values. -/
theorem shown_of_live {oid : ℤ} {x : String × List V} (h : s.live.get? oid = some x) :
    s.shown cl oid = some x := by
  rw [TypedStore.shown, h, Option.some_or]

/-- A load makes an instance and writes nothing. -/
theorem loadOid_spec {oid : ℤ} (hc : s.Coherent cl) (h : s.loadOid cl oid = .ok s') :
    s'.Coherent cl ∧ Rewrites cl (fun _ => False) s s' ∧ s'.dirty = s.dirty ∧
      (∀ o x, s.live.get? o = some x → s'.live.get? o = some x) ∧
      ∃ x, s'.live.get? oid = some x := by
  rw [loadOid] at h
  cases hget : s.live.get? oid with
  | some x =>
      rw [hget] at h
      cases h
      exact ⟨hc, Rewrites.refl, rfl, fun _ _ => id, x, hget⟩
  | none =>
      rw [hget] at h
      rcases except_bind_ok_iff.mp h with ⟨⟨t, values⟩, hentity, h⟩
      cases h
      rcases hydrated_ok hc hentity with ⟨hrec, hclass⟩
      have hkeep : ∀ o x, s.live.get? o = some x →
          (s.live.set oid (t, values)).get? o = some x := by
        intro o x hx
        have hne : o ≠ oid := fun heq => by rw [heq, hget] at hx; cases hx
        rwa [Dict.get?_set_ne _ _ hne]
      -- An instance is the new one, or was there before.
      have hlive : ∀ o x, (s.live.set oid (t, values)).get? o = some x →
          o = oid ∧ x = (t, values) ∨ s.live.get? o = some x := by
        intro o x hx
        by_cases hne : o = oid
        · subst hne
          rw [Dict.get?_set_self] at hx
          exact .inl ⟨rfl, (Option.some_inj.mp hx).symm⟩
        · rw [Dict.get?_set_ne _ _ hne] at hx
          exact .inr hx
      refine ⟨⟨hc.disjoint, hc.nodup, hc.fresh, hc.records, ?_, ?_, ?_, ?_⟩,
        Rewrites.of_same rfl rfl rfl (fun t' o => ?_) fun o => ?_, rfl, hkeep, _,
        Dict.get?_set_self _ _ _⟩
      · intro o t' values' hx
        rcases hlive o _ hx with ⟨-, heq⟩ | hold
        · cases heq
          exact hclass
        · exact hc.liveClass o t' values' hold
      · intro o t' values' hx
        rcases hlive o _ hx with ⟨rfl, heq⟩ | hold
        · cases heq
          exact .inl hrec
        · exact hc.liveRecord o t' values' hold
      · intro o t' values' hx hclean
        rcases hlive o _ hx with ⟨rfl, heq⟩ | hold
        · cases heq
          exact .inl hentity
        · exact hc.clean o t' values' hold hclean
      · intro o ho
        rcases hc.buffered o ho with ⟨x, hx⟩
        exact ⟨x, hkeep o x hx⟩
      · constructor
        · rintro (h | ⟨values', hx⟩)
          · exact .inl h
          · rcases hlive o _ hx with ⟨rfl, heq⟩ | hold
            · cases heq
              exact .inl hrec
            · exact .inr ⟨values', hold⟩
        · rintro (h | ⟨values', hx⟩)
          · exact .inl h
          · exact .inr ⟨values', hkeep o _ hx⟩
      · -- The new instance shows what its record hydrates to.
        by_cases hne : o = oid
        · subst hne
          have hsame : TypedStore.hydrated cl { s with live := s.live.set o (t, values) } o =
            s.hydrated cl o := rfl
          rw [TypedStore.shown, TypedStore.shown, hsame, hentity, hget, Dict.get?_set_self]
          rfl
        · rw [TypedStore.shown, TypedStore.shown, Dict.get?_set_ne _ _ hne]
          rfl

theorem markDirty_spec (s : TypedStore V) (oid : ℤ) :
    ∃ d, s.markDirty oid = { s with dirty := d } ∧ ∀ o, o ∈ d ↔ o ∈ s.dirty ∨ o = oid := by
  unfold markDirty
  by_cases h : oid ∈ s.dirty
  · rw [if_pos h]
    refine ⟨s.dirty, rfl, fun o => ⟨Or.inl, ?_⟩⟩
    rintro (ho | rfl)
    · exact ho
    · exact h
  · rw [if_neg h]
    exact ⟨s.dirty ++ [oid], rfl, fun o => by rw [List.mem_append, List.mem_singleton]⟩

theorem foldl_markDirty_spec (chunk : List ℤ) : ∀ s : TypedStore V,
    ∃ d, chunk.foldl markDirty s = { s with dirty := d } ∧
      ∀ o, o ∈ d ↔ o ∈ s.dirty ∨ o ∈ chunk := by
  induction chunk with
  | nil => exact fun s => ⟨s.dirty, rfl, fun o => by simp⟩
  | cons oid chunk ih =>
      intro s
      rcases markDirty_spec s oid with ⟨d, heq, hd⟩
      rcases ih { s with dirty := d } with ⟨d', heq', hd'⟩
      refine ⟨d', ?_, fun o => ?_⟩
      · rw [List.foldl_cons, heq, heq']
      · rw [hd', List.mem_cons, ← or_assoc, hd]

/-- Buffering instances writes nothing. -/
theorem markDirty_coherent {d : List ℤ} (hc : s.Coherent cl) (hsub : ∀ o ∈ s.dirty, o ∈ d)
    (hd : ∀ o ∈ d, ∃ x, s.live.get? o = some x) :
    Coherent cl { s with dirty := d } ∧ Rewrites cl (fun _ => False) s { s with dirty := d } :=
  ⟨{ hc with
      liveRecord := fun o t values hx =>
        (hc.liveRecord o t values hx).imp_right fun ⟨ho, hnone⟩ => ⟨hsub o ho, hnone⟩
      clean := fun o t values hx hclean => hc.clean o t values hx fun ho => hclean (hsub o ho)
      buffered := hd }, Rewrites.of_same rfl rfl rfl (fun _ _ => Iff.rfl) fun _ => rfl⟩

/-- Writing one buffered instance. -/
theorem writeRecord_spec {oid : ℤ} (hc : s.Coherent cl) (hdirty : oid ∈ s.dirty)
    (h : s.writeRecord cl oid = .ok s') :
    s'.Coherent cl ∧ Rewrites cl (fun o => o = oid) s s' ∧ s'.dirty = s.dirty ∧
      s'.live = s.live := by
  rcases hc.buffered oid hdirty with ⟨⟨t, values⟩, hlive⟩
  rcases hc.liveClass oid t values hlive with ⟨ti, hti, hlen⟩
  rcases writeRecord_written hlive hti h with ⟨kept, cid, hkept, hw⟩
  have hc' := hw.coherent hc hlive hdirty
  refine ⟨hc', ⟨?_, ?_, ?_, ?_, ?_, ?_, ?_, fun o hne => hw.hydrated_ne hc hne⟩, hw.dirty, hw.live⟩
  · exact fun t' o hrec => (hw.isRecord_iff hc hlive).mpr (.inl hrec)
  · exact fun t' o => hw.belongs_iff hc hlive
  · intro o
    by_cases hne : o = oid
    · rw [hne, shown_of_live hlive, shown_of_live (by rwa [hw.live])]
    · rw [shown, shown, hw.live, hw.hydrated_ne hc hne]
  · exact fun t' ti' hti' => hw.unambiguous_iff hc hti hti'
  · intro t' ti' o hti' hrec heq
    subst heq
    cases belongs_unique hc hrec (.inr ⟨values, hlive⟩)
    cases hti.symm.trans hti'
    rw [hw.away_self hc', hw.unambiguous_iff hc hti hti]
  · exact fun t' ti' o hne => hw.away_ne hc hne
  · intro t' ti' o hti' hrec heq
    subst heq
    cases belongs_unique hc hrec (.inr ⟨values, hlive⟩)
    cases hti.symm.trans hti'
    exact ⟨values, kept, shown_of_live hlive, hkept,
      hw.hydrated_self hc' hti (recode_length hkept hlen)⟩

/-- Writing every buffered instance. -/
theorem writeRecords_spec {todo : List ℤ} (hc : s.Coherent cl) (hsub : ∀ o ∈ todo, o ∈ s.dirty)
    (h : todo.foldlM (writeRecord cl) s = .ok s') :
    s'.Coherent cl ∧ Rewrites cl (fun o => o ∈ todo) s s' ∧ s'.dirty = s.dirty ∧
      s'.live = s.live := by
  refine except_foldlM_spec (J := fun done r => r.Coherent cl ∧
    Rewrites cl (fun o => o ∈ done) s r ∧ r.dirty = s.dirty ∧ r.live = s.live) h ?_
    ⟨hc, Rewrites.refl.congr fun o => by simp, rfl, rfl⟩
  rintro done oid r r' hmem hone ⟨hcr, hrw, hdirty, hlive⟩
  rcases writeRecord_spec hcr (hdirty ▸ hsub oid hmem) hone with ⟨hcr', hrw', hdirty', hlive'⟩
  refine ⟨hcr', (hrw.trans hrw').congr fun o => ?_, hdirty'.trans hdirty, hlive'.trans hlive⟩
  rw [List.mem_append, List.mem_singleton]

/-- Behind a commit the record of an instance has what it was read back as, if it was
    written, and what it had before otherwise. -/
theorem clean_of_rewrites {D : ℤ → Prop} (hc : s.Coherent cl) (hrw : Rewrites cl D s s')
    (hD : ∀ o, D o ↔ o ∈ s.dirty) {o : ℤ} {t : String} {values : List V}
    (hlive : s.live.get? o = some (t, values)) :
    s'.hydrated cl o = .ok (t, values) ∨ ∃ ti kept, cl.types t = some ti ∧
      cl.recode ti values = .ok kept ∧ s'.hydrated cl o = .ok (t, kept) := by
  rcases hc.liveClass o t values hlive with ⟨ti, hti, -⟩
  by_cases hdirty : o ∈ s.dirty
  · rcases hrw.stored t ti o hti (.inr ⟨values, hlive⟩) ((hD o).mpr hdirty) with
      ⟨values', kept, hshown, hkept, hhydrated⟩
    rw [shown_of_live hlive] at hshown
    cases hshown
    exact .inr ⟨ti, kept, hti, hkept, hhydrated⟩
  · rw [hrw.unread o fun h => hdirty ((hD o).mp h)]
    exact hc.clean o t values hlive hdirty

/-- A commit writes what is buffered, and nothing is buffered behind it. -/
theorem commit_spec {accepts : TypedStore V → Bool} (hc : s.Coherent cl)
    (h : s.commit cl accepts = .ok s') :
    s'.Coherent cl ∧ Rewrites cl (fun o => o ∈ s.dirty) s s' ∧ s'.dirty = [] := by
  rw [commit] at h
  by_cases hnone : s.dirty = []
  · rw [if_pos hnone] at h
    cases h
    exact ⟨hc, Rewrites.refl.congr fun o => by simp [hnone], hnone⟩
  · rw [if_neg hnone] at h
    by_cases haccepts : accepts s = true
    · rw [if_pos haccepts] at h
      rcases except_bind_ok_iff.mp h with ⟨written, hrun, h⟩
      cases h
      rcases writeRecords_spec hc (fun o ho => ho) hrun with ⟨hc', hrw, -, hlive⟩
      have hcleared : Rewrites cl (fun _ => False) written { written with dirty := [] } :=
        Rewrites.of_same rfl rfl rfl (fun _ _ => Iff.rfl) fun _ => rfl
      have hall : ∀ o t values, written.live.get? o = some (t, values) →
          written.hydrated cl o = .ok (t, values) ∨ ∃ ti kept, cl.types t = some ti ∧
            cl.recode ti values = .ok kept ∧ written.hydrated cl o = .ok (t, kept) :=
        fun o t values hx => clean_of_rewrites hc hrw (fun _ => Iff.rfl) (hlive ▸ hx)
      refine ⟨{ hc' with
        liveRecord := fun o t values hx => .inl ?_
        clean := fun o t values hx _ => hall o t values hx
        buffered := fun o ho => absurd ho List.not_mem_nil },
        (hrw.trans hcleared).congr fun o => (or_iff_left id).symm, rfl⟩
      rcases hall o t values hx with hloaded | ⟨_, _, _, _, hkept⟩
      · exact (hydrated_ok hc' hloaded).1
      · exact (hydrated_ok hc' hkept).1
    · rw [if_neg haccepts] at h
      cases h

end Operations

section Migration

variable {accepts : TypedStore V → Bool} {batch : ℤ}

/-- One portion: what was buffered and the portion are written. -/
theorem migrateChunk_spec {st st' : Nat × TypedStore V} {chunk : List ℤ} (hc : st.2.Coherent cl)
    (h : migrateChunk cl accepts st chunk = .ok st') :
    st'.1 = st.1 + chunk.length ∧ st'.2.Coherent cl ∧
      Rewrites cl (fun o => o ∈ st.2.dirty ∨ o ∈ chunk) st.2 st'.2 ∧ st'.2.dirty = [] := by
  rw [migrateChunk] at h
  rcases except_bind_ok_iff.mp h with ⟨loaded, hload, h⟩
  rcases except_bind_ok_iff.mp h with ⟨s', hcommit, h⟩
  cases h
  have hloaded := except_foldlM_spec (J := fun done r => r.Coherent cl ∧
    Rewrites cl (fun _ => False) st.2 r ∧ r.dirty = st.2.dirty ∧
      ∀ o ∈ done, ∃ x, r.live.get? o = some x) hload
    (by
      rintro done oid r r' - hone ⟨hcr, hrw, hdirty, hdone⟩
      rcases loadOid_spec hcr hone with ⟨hcr', hrw', hdirty', hkeep, hnew⟩
      refine ⟨hcr', (hrw.trans hrw').congr fun o => by simp, hdirty'.trans hdirty, ?_⟩
      intro o ho
      rcases List.mem_append.mp ho with ho | ho
      · rcases hdone o ho with ⟨x, hx⟩
        exact ⟨x, hkeep o x hx⟩
      · rwa [List.mem_singleton.mp ho])
    ⟨hc, Rewrites.refl, rfl, fun o ho => absurd ho List.not_mem_nil⟩
  rcases hloaded with ⟨hcl, hrw, hdirty, hlive⟩
  rcases foldl_markDirty_spec chunk loaded with ⟨d, hmarked, hd⟩
  rw [hmarked] at hcommit
  have hmark := markDirty_coherent (d := d) hcl (fun o ho => (hd o).mpr (.inl ho)) fun o ho => by
    rcases (hd o).mp ho with ho | ho
    · exact hcl.buffered o ho
    · exact hlive o ho
  rcases commit_spec hmark.1 hcommit with ⟨hc', hrw', hnone⟩
  refine ⟨rfl, hc', ((hrw.trans hmark.2).trans hrw').congr fun o => ?_, hnone⟩
  rw [hd o, hdirty]
  simp

/-- The portions of a class. -/
theorem migrateChunks_spec {st st' : Nat × TypedStore V} {chunks : List (List ℤ)}
    (hc : st.2.Coherent cl) (h : chunks.foldlM (migrateChunk cl accepts) st = .ok st') :
    st'.1 = st.1 + chunks.flatten.length ∧ st'.2.Coherent cl ∧
      (chunks = [] ∧ st' = st ∨ st'.2.dirty = [] ∧
        Rewrites cl (fun o => o ∈ st.2.dirty ∨ o ∈ chunks.flatten) st.2 st'.2) := by
  refine except_foldlM_spec (J := fun done r =>
    r.1 = st.1 + done.flatten.length ∧ r.2.Coherent cl ∧ (done = [] ∧ r = st ∨ r.2.dirty = [] ∧
      Rewrites cl (fun o => o ∈ st.2.dirty ∨ o ∈ done.flatten) st.2 r.2)) h ?_
    ⟨rfl, hc, .inl ⟨rfl, rfl⟩⟩
  rintro done chunk r r' - hone ⟨hcount, hcr, hcase⟩
  rcases migrateChunk_spec hcr hone with ⟨hcount', hcr', hrw', hnone⟩
  rw [List.flatten_append, List.flatten_singleton]
  refine ⟨?_, hcr', .inr ⟨hnone, ?_⟩⟩
  · rw [hcount', hcount, List.length_append, Nat.add_assoc]
  · rcases hcase with ⟨rfl, rfl⟩ | ⟨hempty, hrw⟩
    · exact hrw'
    · -- Behind the first portion nothing else is buffered.
      refine (hrw.trans hrw').congr fun o => ?_
      rw [hempty, List.mem_append]
      simp [or_assoc]

/-- One class: nothing happens if none of its records is away from the current shape, and
    otherwise these are written, with what was buffered. -/
theorem migrateType_spec (hbatch : 0 < batch) {st st' : Nat × TypedStore V} {t : String}
    {ti : LiveClass V} (hti : cl.types t = some ti) (hc : st.2.Coherent cl)
    (h : migrateType cl accepts batch st t = .ok st') :
    st'.2.Coherent cl ∧ ((∀ o, ¬st.2.Away t ti o) ∧ st' = st ∨
      (∃ o, st.2.Away t ti o) ∧ st.1 < st'.1 ∧ st'.2.dirty = [] ∧
        Rewrites cl (fun o => o ∈ st.2.dirty ∨ st.2.Away t ti o) st.2 st'.2) := by
  have hflat := mem_slices (k := batch.toNat) (by omega) (st.2.staleOids t ti)
  have hbatches : batches batch (st.2.staleOids t ti) =
      .ok (slices batch.toNat (st.2.staleOids t ti)) := by
    rw [batches, if_neg (by omega), if_neg (by omega)]
  simp only [migrateType, hti] at h
  -- No shape is stale, or the slices of the records are gone through.
  by_cases hstale : st.2.stale t ti = []
  · rw [if_pos hstale] at h
    cases h
    refine ⟨hc, .inl ⟨fun o ho => ?_, rfl⟩⟩
    rw [← mem_staleOids_iff, staleOids, hstale] at ho
    exact absurd ho List.not_mem_nil
  · rw [if_neg hstale, hbatches] at h
    rcases migrateChunks_spec hc h with ⟨hcount, hc', hcase⟩
    refine ⟨hc', ?_⟩
    -- No slice: then there was no record under a stale shape.
    rcases hcase with ⟨hnil, rfl⟩ | ⟨hnone, hrw⟩
    · refine .inl ⟨fun o ho => ?_, rfl⟩
      rw [← mem_staleOids_iff, ← hflat, hnil] at ho
      exact absurd ho List.not_mem_nil
    · by_cases hany : ∃ o, st.2.Away t ti o
      · rcases hany with ⟨o, ho⟩
        have hmem := (hflat o).mpr (mem_staleOids_iff.mpr ho)
        have hpos := List.length_pos_of_mem hmem
        refine .inr ⟨⟨o, ho⟩, by omega, hnone, hrw.congr fun o => ?_⟩
        rw [hflat, mem_staleOids_iff]
      -- The last case is empty again, as a slice has a record.
      · have hempty : st.2.staleOids t ti = [] :=
          List.eq_nil_iff_forall_not_mem.mpr fun o ho => hany ⟨o, mem_staleOids_iff.mp ho⟩
        rw [hempty, slices_nil] at h
        cases h
        exact .inl ⟨fun o ho => hany ⟨o, ho⟩, rfl⟩

theorem migrateType_unknown {st : Nat × TypedStore V} {t : String} (h : cl.types t = none) :
    migrateType cl accepts batch st t = .ok st := by
  simp only [migrateType, h]

/-- How far a migration has come that has been through some classes: either nothing was to
    be done, or everything that was buffered and every stale record of these classes has
    been written, and nothing but what `Rewritten` says. -/
structure Progress (cl : Classes V) (s : TypedStore V) (done : List String)
    (st : Nat × TypedStore V) (D : ℤ → Prop) : Prop where
  rewrites : Rewrites cl D s st.2
  began : st = (0, s) ∧ (∀ o, ¬D o) ∨ 0 < st.1 ∧ st.2.dirty = [] ∧ ∀ o ∈ s.dirty, D o
  stale : ∀ t ∈ done, ∀ ti, cl.types t = some ti → ∀ o, s.Away t ti o → D o
  only : ∀ o, D o → Rewritten cl s o

theorem hasStale_of_away {t : String} {ti : LiveClass V} {o : ℤ} (h : s.Away t ti o) :
    s.HasStale t ti := ⟨o, mem_staleOids_iff.mpr h⟩

/-- The turn of a class. -/
theorem Progress.turn (hbatch : 0 < batch) {done : List String}
    {st st' : Nat × TypedStore V} {D : ℤ → Prop} {t : String} (hst : st.2.Coherent cl)
    (hp : Progress cl s done st D) (h : migrateType cl accepts batch st t = .ok st') :
    st'.2.Coherent cl ∧ ∃ E, Progress cl s (done ++ [t]) st' E := by
  cases hti : cl.types t with
  | none =>
      rw [migrateType_unknown hti] at h
      cases h
      refine ⟨hst, D, { hp with stale := fun t' ht' ti' hti' => ?_ }⟩
      rcases List.mem_append.mp ht' with ht' | ht'
      · exact hp.stale t' ht' ti' hti'
      · rw [List.mem_singleton.mp ht', hti] at hti'
        cases hti'
  | some ti =>
      -- A record of the class that is still as it was is away now if it was before.
      have hold : ∀ o, ¬D o → (st.2.Away t ti o ↔ s.Away t ti o) :=
        fun o => hp.rewrites.kept t ti o
      rcases migrateType_spec hbatch hti hst h with ⟨hst', ⟨hnone, rfl⟩ | ⟨⟨o₀, ho₀⟩, hlt, hempty, hrw⟩⟩
      · refine ⟨hst', D, { hp with stale := fun t' ht' ti' hti' o ho => ?_ }⟩
        rcases List.mem_append.mp ht' with ht' | ht'
        · exact hp.stale t' ht' ti' hti' o ho
        · cases List.mem_singleton.mp ht'
          cases hti.symm.trans hti'
          by_contra hD
          exact hnone o ((hold o hD).mpr ho)
      · refine ⟨hst', _, hp.rewrites.trans hrw, .inr ⟨by omega, hempty, fun o ho => ?_⟩, ?_, ?_⟩
        · rcases hp.began with ⟨rfl, -⟩ | ⟨-, -, hall⟩
          · exact .inr (.inl ho)
          · exact .inl (hall o ho)
        · intro t' ht' ti' hti' o ho
          rcases List.mem_append.mp ht' with ht' | ht'
          · exact .inl (hp.stale t' ht' ti' hti' o ho)
          · cases List.mem_singleton.mp ht'
            cases hti.symm.trans hti'
            by_cases hD : D o
            · exact .inl hD
            · exact .inr (.inr ((hold o hD).mpr ho))
        · rintro o (hD | hdirty | ho)
          · exact hp.only o hD
          · -- Only the first commit meets something that was buffered before.
            rcases hp.began with ⟨rfl, -⟩ | ⟨-, hnone, -⟩
            · exact .inr ⟨hdirty, t, ti, hti, hasStale_of_away ho₀⟩
            · rw [hnone] at hdirty
              exact absurd hdirty List.not_mem_nil
          · by_cases hD : D o
            · exact hp.only o hD
            · exact .inl ⟨t, ti, hti, mem_staleOids_iff.mpr ((hold o hD).mp ho)⟩

/-- A migration that returned. -/
theorem migrate_progress (hbatch : 0 < batch) (hc : s.Coherent cl) {n : Nat}
    (h : s.migrate cl accepts batch = .ok (n, s')) :
    s'.Coherent cl ∧ ∃ D, Progress cl s s.cidsByTypename.keys (n, s') D := by
  refine except_foldlM_spec (J := fun done (st : Nat × TypedStore V) =>
    st.2.Coherent cl ∧ ∃ D, Progress cl s done st D) h ?_ ⟨hc, fun _ => False, ?_⟩
  · rintro done t st st' - hone ⟨hst, D, hp⟩
    exact hp.turn hbatch hst hone
  · exact ⟨Rewrites.refl, .inl ⟨rfl, fun _ => id⟩, fun t ht => absurd ht List.not_mem_nil,
      fun _ h => h.elim⟩

/-- Without stale records a migration does nothing. -/
theorem migrate_idle (hbatch : 0 < batch)
    (h : ∀ t ti, cl.types t = some ti → ∀ o, ¬s.Away t ti o) :
    s.migrate cl accepts batch = .ok (0, s) := by
  refine except_foldlM_still fun t _ => ?_
  cases hti : cl.types t with
  | none => exact migrateType_unknown hti
  | some ti =>
      have hempty : s.staleOids t ti = [] :=
        List.eq_nil_iff_forall_not_mem.mpr fun o ho => h t ti hti o (mem_staleOids_iff.mp ho)
      simp only [migrateType, hti, hempty, batches, slices_nil]
      rw [if_neg (by omega : batch ≠ 0), if_neg (by omega : ¬batch < 0)]
      split <;> rfl

/-- A migration that does nothing had no stale records. -/
theorem not_away_of_idle (hbatch : 0 < batch) (hc : s.Coherent cl)
    (h : s.migrate cl accepts batch = .ok (0, s')) {t : String} {ti : LiveClass V}
    (hti : cl.types t = some ti) (o : ℤ) : ¬s.Away t ti o := by
  intro ho
  rcases migrate_progress hbatch hc h with ⟨-, D, hp⟩
  rcases hp.began with ⟨-, hnone⟩ | ⟨hpos, -, -⟩
  · have hkey : t ∈ s.cidsByTypename.keys := by
      rcases ho with ⟨cid, stored, -, hmem, -⟩
      exact mem_keys_of_mem_lineage hmem
    exact hnone o (hp.stale t hkey ti hti o ho)
  · exact absurd hpos (lt_irrefl 0)

/-- A migration with no size of batches to speak of does nothing when it returns, and with
    batches of none there are no stale shapes then. -/
theorem migrate_nonpos (hbatch : batch ≤ 0) {n : Nat}
    (h : s.migrate cl accepts batch = .ok (n, s')) :
    (n, s') = (0, s) ∧ (batch = 0 → ∀ t ti, cl.types t = some ti → s.stale t ti = []) := by
  -- Class by class the store and the count are as they were.
  have hall := except_foldlM_spec (J := fun done (st : Nat × TypedStore V) =>
    st = (0, s) ∧ (batch = 0 → ∀ t ∈ done, ∀ ti, cl.types t = some ti → s.stale t ti = [])) h
    (by
      rintro done t st st' - hone ⟨rfl, hdone⟩
      cases hti : cl.types t with
      | none =>
          rw [migrateType_unknown hti] at hone
          cases hone
          refine ⟨rfl, fun hzero t' ht' ti' hti' => ?_⟩
          rcases List.mem_append.mp ht' with ht' | ht'
          · exact hdone hzero t' ht' ti' hti'
          · cases List.mem_singleton.mp ht'
            cases hti.symm.trans hti'
      | some ti =>
          simp only [migrateType, hti, batches] at hone
          by_cases hstale : s.stale t ti = []
          · rw [if_pos hstale] at hone
            cases hone
            refine ⟨rfl, fun hzero t' ht' ti' hti' => ?_⟩
            rcases List.mem_append.mp ht' with ht' | ht'
            · exact hdone hzero t' ht' ti' hti'
            · cases List.mem_singleton.mp ht'
              cases hti.symm.trans hti'
              exact hstale
          · rw [if_neg hstale] at hone
            by_cases hzero : batch = 0
            · rw [if_pos hzero] at hone
              cases hone
            · rw [if_neg hzero, if_pos (by omega)] at hone
              cases hone
              exact ⟨rfl, fun h => absurd h hzero⟩)
    ⟨rfl, fun _ t ht => absurd ht List.not_mem_nil⟩
  refine ⟨hall.1, fun hzero t ti hti => ?_⟩
  by_cases hkey : t ∈ s.cidsByTypename.keys
  · exact hall.2 hzero t hkey ti hti
  · have hempty : s.lineage t = [] := by
      rw [lineage, (Dict.not_mem_keys_iff _ _).mp hkey]
      rfl
    rw [stale, hempty]
    rfl

/-- What a migration that returned has written are the records it rewrites. -/
theorem Progress.written_iff {D : ℤ → Prop} {st : Nat × TypedStore V}
    (hp : Progress cl s s.cidsByTypename.keys st D) (o : ℤ) : D o ↔ Rewritten cl s o := by
  have hkeys : ∀ {t ti o'}, cl.types t = some ti → o' ∈ s.staleOids t ti → D o' := by
    intro t ti o' hti ho'
    have haway := mem_staleOids_iff.mp ho'
    rcases haway.isRecord with ⟨cid, stored, -, hmem⟩
    exact hp.stale t (mem_keys_of_mem_lineage hmem) ti hti o' haway
  constructor
  · exact hp.only o
  · rintro (⟨t, ti, hti, ho⟩ | ⟨hdirty, t, ti, hti, o', ho'⟩)
    · exact hkeys hti ho
    · rcases hp.began with ⟨-, hnone⟩ | ⟨-, -, hall⟩
      · exact absurd (hkeys hti ho') (hnone o')
      · exact hall o hdirty

/-- Operations that wrote nothing, or everything that was buffered, have preserved the
    records whose shape has the live fields now, if those that were written are read back with
    the values they had. -/
theorem preserved_iff {D : ℤ → Prop} (hrw : Rewrites cl D s s')
    (hdone : (∀ o, ¬D o) ∧ s'.dirty = s.dirty ∨ s'.dirty = [] ∧ ∀ o ∈ s.dirty, D o) :
    Preserved cl s s' ↔ ∀ t ti, cl.types t = some ti → ∀ o, s.IsRecord t o →
      (∀ cid stored, s'.objects.get? o = some (cid, stored) → cid ∈ s'.lineage t →
        s'.persistedFields cid = ti.fieldNames) ∧ (D o → Keeps cl s t ti o) := by
  refine forall₂_congr fun t ti => forall_congr' fun hti => forall_congr' fun o =>
    forall_congr' fun hrec => ?_
  rcases hrw.isRecord t o hrec with ⟨cid, stored, hget, hmem⟩
  have hshape : (∃ cid stored, s'.objects.get? o = some (cid, stored) ∧ cid ∈ s'.lineage t ∧
      s'.persistedFields cid = ti.fieldNames) ↔ ∀ cid stored,
        s'.objects.get? o = some (cid, stored) → cid ∈ s'.lineage t →
          s'.persistedFields cid = ti.fieldNames := by
    constructor
    · rintro ⟨cid', stored', hget', -, hfields⟩ c x hx _
      cases hget'.symm.trans hx
      exact hfields
    · exact fun h => ⟨cid, stored, hget, hmem, h cid stored hget hmem⟩
  have hvalues : (o ∉ s'.dirty → (s'.hydrated cl o).toOption = s.held cl o) ↔
      (D o → Keeps cl s t ti o) := by
    by_cases hD : D o
    · have hnone : s'.dirty = [] := by
        rcases hdone with ⟨hno, -⟩ | ⟨hnone, -⟩
        · exact absurd hD (hno o)
        · exact hnone
      rcases hrw.stored t ti o hti (.inl hrec) hD with ⟨values, kept, hshown, hkept, hhydrated⟩
      -- A written record hydrates to what its values are read back as.
      simp only [hnone, List.not_mem_nil, not_false_iff, true_implies, hD, hhydrated]
      constructor
      · intro h values' hvalues'
        cases hshown.symm.trans hvalues'
        exact ⟨kept, hkept, h.symm⟩
      · intro h
        rcases h values hshown with ⟨kept', hkept', hheld⟩
        cases hkept.symm.trans hkept'
        exact hheld.symm
    · refine iff_of_true (fun hclean => ?_) fun h => absurd h hD
      have hnot : o ∉ s.dirty := by
        rcases hdone with ⟨-, hsame⟩ | ⟨-, hall⟩
        · rwa [hsame] at hclean
        · exact fun h => hD (hall o h)
      rw [hrw.unread o hD, held, if_neg hnot]
  rw [hshape, hvalues, and_iff_right (hrw.shown o)]

theorem fields_of_not_away {t : String} {ti : LiveClass V} {o cid : ℤ} {stored : Stored V}
    (h : ¬s.Away t ti o) (hget : s.objects.get? o = some (cid, stored)) (hmem : cid ∈ s.lineage t) :
    s.persistedFields cid = ti.fieldNames := by
  by_cases hcur : s.current t ti = some cid
  · exact (current_spec hcur).2
  · exact absurd ⟨cid, stored, hget, hmem, hcur⟩ h

/-- A migration leaves every record under the live shape and with its values, with nothing
    to do for another one, exactly if no class that it writes has a lineage with an earlier
    shape that has the live fields, and what it writes is read back as it was. -/
theorem migrates_well_iff (hc : s.Coherent cl) {n : Nat}
    (h : s.migrate cl accepts batch = .ok (n, s')) :
    MigratesWell cl accepts batch s s' ↔ Migratable cl batch s := by
  -- A positive batch: what is written is what was stale or buffered.
  by_cases hbatch : 0 < batch
  · rcases migrate_progress hbatch hc h with ⟨hc', D, hp⟩
    have hwritten : ∀ o, D o ↔ Rewritten cl s o := hp.written_iff
    have hdone : (∀ o, ¬D o) ∧ s'.dirty = s.dirty ∨ s'.dirty = [] ∧ ∀ o ∈ s.dirty, D o := by
      rcases hp.began with ⟨heq, hnone⟩ | ⟨-, hempty, hall⟩
      · cases heq
        exact .inl ⟨hnone, rfl⟩
      · exact .inr ⟨hempty, hall⟩
    rw [MigratesWell, preserved_iff hp.rewrites hdone]
    constructor
    -- Well migrated means that nothing is stale behind it, so each record written stays.
    · rintro ⟨hpreserved, hidle⟩
      refine ⟨fun _ t ti hti => ⟨?_, fun o hrec ho => ?_⟩, fun hneg => absurd hneg (by omega)⟩
      · -- A record written in an ambiguous lineage is left for the next migration.
        rintro ⟨o, hbelongs, ho⟩
        by_contra hu
        exact not_away_of_idle hbatch hc' hidle hti o
          ((hp.rewrites.written t ti o hti hbelongs ((hwritten o).mpr ho)).mpr hu)
      · exact (hpreserved t ti hti o hrec).2 ((hwritten o).mpr ho)
    · rintro ⟨hgood, -⟩
      have hnone : ∀ t ti, cl.types t = some ti → ∀ o, ¬s'.Away t ti o := by
        intro t ti hti o ho
        have hbelongs := (hp.rewrites.belongs t o).mp (.inl ho.isRecord)
        by_cases hD : D o
        · exact (hp.rewrites.written t ti o hti hbelongs hD).mp ho
            ((hgood hbatch t ti hti).1 ⟨o, hbelongs, (hwritten o).mp hD⟩)
        · have hold := (hp.rewrites.kept t ti o hD).mp ho
          exact hD ((hwritten o).mpr (.inl ⟨t, ti, hti, mem_staleOids_iff.mpr hold⟩))
      refine ⟨fun t ti hti o hrec => ⟨fun cid stored hget hmem => ?_, fun hD => ?_⟩,
        migrate_idle hbatch hnone⟩
      · exact fields_of_not_away (hnone t ti hti o) hget hmem
      · exact (hgood hbatch t ti hti).2 o hrec ((hwritten o).mp hD)
  -- Otherwise nothing is written: a batch of zero raises unless nothing is stale, and a negative
  -- one takes no chunk.
  · rcases migrate_nonpos (by omega) h with ⟨heq, hzero⟩
    cases heq
    rw [MigratesWell, preserved_iff Rewrites.refl (.inl ⟨fun _ => id, rfl⟩), and_iff_left h]
    constructor
    · intro hfields
      refine ⟨fun hpos => absurd hpos hbatch, fun _ t ti hti o cid stored hget hmem => ?_⟩
      exact (hfields t ti hti o ⟨cid, stored, hget, hmem⟩).1 cid stored hget hmem
    · rintro ⟨-, hneg⟩ t ti hti o -
      refine ⟨fun cid stored hget hmem => ?_, fun h => h.elim⟩
      by_cases hnone : batch = 0
      · refine fields_of_not_away (o := o) (fun ho => ?_) hget hmem
        rw [← mem_staleOids_iff, staleOids, hzero hnone t ti hti] at ho
        exact absurd ho List.not_mem_nil
      · exact hneg (by omega) t ti hti o cid stored hget hmem

end Migration

section Concrete

variable {accepts : TypedStore V → Bool} {batch : ℤ}

/-- A store of one class, with nothing loaded. -/
theorem coherent_of_single {t : String} {cids : List ℤ}
    (hcids : s.cidsByTypename = Dict.empty.set t cids) (hnd : cids.Nodup)
    (hfresh : ∀ c ∈ cids, c < s.nextCid)
    (hrecords : ∀ e ∈ s.objects.entries, e.2.1 < s.nextCid) (hlive : s.live = Dict.empty)
    (hdirty : s.dirty = []) : s.Coherent cl := by
  -- The class has all the shapes, any other has none.
  have hlineage : ∀ t', s.lineage t' = if t' = t then cids else [] := by
    intro t'
    rw [lineage, hcids, Dict.get?_set]
    split <;> rfl
  have hmem : ∀ {t' c}, c ∈ s.lineage t' → t' = t ∧ c ∈ cids := by
    intro t' c h
    rw [hlineage] at h
    by_cases heq : t' = t
    · rw [if_pos heq] at h
      exact ⟨heq, h⟩
    · rw [if_neg heq] at h
      exact absurd h List.not_mem_nil
  -- No instance is live, so nothing is asked of one.
  have hnone : ∀ oid, s.live.get? oid = none := fun oid => by rw [hlive, Dict.get?_empty]
  refine ⟨fun t₁ t₂ c h₁ h₂ => (hmem h₁).1.trans (hmem h₂).1.symm, fun t' => ?_,
    fun t' c h => hfresh c (hmem h).2, fun oid cid stored hget => ?_, ?_, ?_, ?_, ?_⟩
  · rw [hlineage]
    split
    · exact hnd
    · exact List.nodup_nil
  · exact hrecords _ ((Dict.get?_eq_some_iff _ _ _).mp hget)
  · intro oid t' values h
    rw [hnone] at h
    cases h
  · intro oid t' values h
    rw [hnone] at h
    cases h
  · intro oid t' values h
    rw [hnone] at h
    cases h
  · intro oid h
    rw [hdirty] at h
    exact absurd h List.not_mem_nil

/-- What the codec raises. -/
def raisedOf : CodecErr → Raised
  | .typeError => .typeError
  | .valueError => .valueError
  | .overflowError => .other "OverflowError"
  | .structError => .other "struct.error"

/-- A decoded value as an entity holds it. The codec writes no extensions but its own. -/
def resolved : Decoded → Except Raised (LiveVal Empty)
  | .leaf l => .ok (.leaf l)
  | .ref oid => .ok (.lazy none (some oid))
  | .blob d => .ok (.blobHandle d)
  | .ext _ _ => .error .typeError
  | .list items => do
    let vs ← resolvedItems items
    pure (.list vs)
  | .dict entries => do
    let es ← resolvedEntries entries
    pure (.dict es)
where
  resolvedItems : List Decoded → Except Raised (List (LiveVal Empty))
    | [] => pure []
    | d :: ds => do
      let v ← resolved d
      let vs ← resolvedItems ds
      pure (v :: vs)
  resolvedEntries : List (Leaf × Decoded) → Except Raised (List (Leaf × LiveVal Empty))
    | [] => pure []
    | (k, d) :: es => do
      let v ← resolved d
      let rest ← resolvedEntries es
      pure ((k, v) :: rest)

/-- The record codec on a value that is no blob. -/
def recordCodec (_ : FieldSpec (LiveVal Empty)) (v : LiveVal Empty) :
    Except Raised (LiveVal Empty) := do
  let payload ← (encodePayload plainEnv [v]).mapError raisedOf
  match ← (decodePayload payload).mapError raisedOf with
  | [d] => resolved d
  | _ => .error .schemaMismatch

/-- A class that has got a field, with a default. -/
def van (dflt : LiveVal Empty) : LiveClass (LiveVal Empty) where
  specs := [{ name := "wheels" }, { name := "doors" }]
  defaults name := if name = "doors" then some (.ok dflt) else none
  names_nodup := by decide

def vans (dflt : LiveVal Empty) : Classes (LiveVal Empty) where
  types t := if t = "Van" then some (van dflt) else none
  codec := recordCodec

/-- One record, from before the class had the field. -/
def extended : TypedStore (LiveVal Empty) where
  cidsByTypename := Dict.empty.set "Van" [1]
  persistedFields _ := ["wheels"]
  nextCid := 2
  objects := Dict.empty.set 10 (1, .ok (.list [.leaf (.int 4)]))

theorem extended_coherent (dflt : LiveVal Empty) : extended.Coherent (vans dflt) :=
  coherent_of_single rfl (by decide) (by decide) (by decide) rfl rfl

/-- The record is written again with the field, and another migration does nothing. -/
theorem migrates_well_on_extended : ∃ s',
    extended.migrate (vans (.leaf (.int 5))) (fun _ => true) 10 = .ok (1, s') ∧
      MigratesWell (vans (.leaf (.int 5))) (fun _ => true) 10 extended s' := by
  have hcount : (do
      let st ← extended.migrate (vans (.leaf (.int 5))) (fun _ => true) 10
      pure st.1) = .ok 1 := rfl
  rcases except_bind_ok_iff.mp hcount with ⟨⟨n, s'⟩, hrun, h⟩
  cases h
  refine ⟨s', hrun, (migrates_well_iff (extended_coherent _) hrun).mpr
    ⟨fun _ t ti hti => ?_, fun h => absurd h (by decide)⟩⟩
  by_cases ht : t = "Van"
  · subst ht
    cases hti
    refine ⟨fun _ cid _ hfields => ?_, fun oid hrec _ values hshown => ?_⟩
    · -- The only shape there is has other fields.
      have hother : ["wheels"] ≠ (van (.leaf (.int 5))).fieldNames := by decide
      exact absurd hfields hother
    · rcases hrec with ⟨cid, stored, hget, -⟩
      by_cases hoid : oid = 10
      · subst hoid
        cases hshown
        exact ⟨[.leaf (.int 4), .leaf (.int 5)], rfl, rfl⟩
      · rw [extended, Dict.get?_set_ne _ _ hoid] at hget
        cases hget
  · simp only [vans, ht, if_false] at hti
    cases hti

-- A default that is a tuple comes back as a list.
example : (do
    let st ← extended.migrate (vans (.tuple [.leaf (.int 5)])) (fun _ => true) 10
    st.2.hydrated (vans (.tuple [.leaf (.int 5)])) 10) =
      .ok ("Van", [.leaf (.int 4), .list [.leaf (.int 5)]]) := rfl

/-- A class with the fields it was first persisted with. -/
def car : LiveClass (LiveVal Empty) where
  specs := [{ name := "wheels" }]
  names_nodup := by decide

def cars : Classes (LiveVal Empty) where
  types t := if t = "Car" then some car else none
  codec := recordCodec

/-- A class that had a field and has lost it again: one record is under the first shape and
    one under the second. -/
def returned : TypedStore (LiveVal Empty) where
  cidsByTypename := Dict.empty.set "Car" [1, 2]
  persistedFields cid := if cid = 2 then ["wheels", "doors"] else ["wheels"]
  nextCid := 3
  objects := Dict.ofList [(10, 1, .ok (.list [.leaf (.int 4)])),
    (11, 2, .ok (.list [.leaf (.int 4), .leaf (.int 5)]))]

/-- The record under the second shape is written under a third one, with the fields of the
    first. The first one still counts as current, so every migration writes it again. -/
theorem returned_migrates_again : returned.Coherent cars ∧ ∃ s',
    returned.migrate cars (fun _ => true) 10 = .ok (1, s') ∧
      ¬MigratesWell cars (fun _ => true) 10 returned s' := by
  have hagain : (do
      let st ← returned.migrate cars (fun _ => true) 10
      let again ← st.2.migrate cars (fun _ => true) 10
      pure (st.1, again.1)) = .ok (1, 1) := rfl
  rcases except_bind_ok_iff.mp hagain with ⟨⟨n, s'⟩, hrun, h⟩
  rcases except_bind_ok_iff.mp h with ⟨⟨m, s''⟩, hnext, h⟩
  cases h
  refine ⟨coherent_of_single rfl (by decide) (by decide) (by decide) rfl rfl, s', hrun, ?_⟩
  rintro ⟨-, hidle⟩
  cases hnext.symm.trans hidle

end Concrete

end TypedStore

end Evolution

end DataCrystal
