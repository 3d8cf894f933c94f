import DataCrystal.Index.ClassIndexes

/-!
# What an Index Stands For

An index is a derived view of the records of its class. `Represents` says
which records: the extent is their OIDs, a posting is the OIDs holding its key,
a unique map names the holder of each key, and the memory of an OID is what its
record holds now. Everything the program later relies on follows from it, and
two indexes of the same records agree on every answer they can give.

The rows are a function from OIDs to the keys of each field, so the invariant
does not care in which order the records came. It is relative to the unique
keys that rows have lost, because two rows can hold one key. A commit folds its
writes in before its deletes, so a new record may claim the key of a record
the same commit deletes, and until the delete is folded in the map names the
new one. A build over records that already collide ends with the map naming
the last. Where no key is lost, the unique map names exactly the holders.

The sorted runs are a separate matter, `Sound`: they depend on the keys being
mutually orderable, and on nothing in the records.

## Main definitions

* `Rows`: The keys of each field of each record.
* `Lost`: The unique keys rows hold in vain.
* `ClassIndexes.Sound`: Keys are orderable and the runs sort them.
* `ClassIndexes.Added`: One index is another with an OID posted under more keys.
* `ClassIndexes.Represents`: An index stands for a set of rows.
* `ClassIndexes.Agree`: Two indexes answer alike.

## Theorems

* `addKey_spec`, `indexField_spec`: Indexing one value.
* `represents_insert`: Folding in a write replaces one row.
* `represents_remove`: Folding in a delete drops one row.
* `represents_ext`: Two indexes of the same rows agree.
-/

namespace DataCrystal

/-- The keys of each field of each record. -/
abbrev Rows := Nat → Option (String → List (Option Key))

/-- The keys of each field of a row; a value no index accepts has none. -/
def rowKeys {ρ : Type} (ti : TypeInfo) (row : String → Val ρ) (f : String) : List (Option Key) :=
  match (row f).indexKeys (ti.listFields.contains f) with
  | .ok keys => keys
  | .error _ => []

/-- The values of the maintained fields are of indexable types, no element of
    a list field is `None`, no value is a NaN, and the values of a sorted field
    belong to the field's family. -/
structure Conforms {ρ : Type} (fam : String → Family) (ti : TypeInfo) (row : String → Val ρ) :
    Prop where
  keyed : ∀ f ∈ ti.maintainedFields,
    (row f).indexKeys (ti.listFields.contains f) = .ok (rowKeys ti row f)
  elements : ∀ f ∈ ti.listFields, none ∉ rowKeys ti row f
  noNan : ∀ f ∈ ti.maintainedFields, ∀ k, some k ∈ rowKeys ti row f → k.family ≠ .nan
  ordered : ∀ f ∈ ti.sortedFields, ∀ k, some k ∈ rowKeys ti row f → k.family = fam f

instance {ρ : Type} (fam : String → Family) (ti : TypeInfo) (row : String → Val ρ) :
    Decidable (Conforms fam ti row) :=
  decidable_of_iff ((∀ f ∈ ti.maintainedFields,
      (row f).indexKeys (ti.listFields.contains f) = .ok (rowKeys ti row f)) ∧
    (∀ f ∈ ti.listFields, none ∉ rowKeys ti row f) ∧
    (∀ f ∈ ti.maintainedFields, ∀ o ∈ rowKeys ti row f, o.all fun k => k.family ≠ .nan) ∧
    ∀ f ∈ ti.sortedFields, ∀ o ∈ rowKeys ti row f, o.all fun k => k.family = fam f)
  ⟨fun h => ⟨h.1, h.2.1, fun f hf k hk => by simpa using h.2.2.1 f hf _ hk,
      fun f hf k hk => by simpa using h.2.2.2 f hf _ hk⟩,
    fun h => ⟨h.keyed, h.elements, fun f hf o ho => by
      cases o with
      | none => rfl
      | some k => simpa using h.noNan f hf k ho, fun f hf o ho => by
      cases o with
      | none => rfl
      | some k => simpa using h.ordered f hf k ho⟩⟩

/-- The unique keys that rows hold and their map no longer names them for. -/
abbrev Lost := String → Key → Nat → Prop

/-- No unique key is lost. -/
def noneLost : Lost := fun _ _ _ => False

/-- The keys a row holds in a field; an absent row holds none. -/
def recalled (r : Option (String → List (Option Key))) (f : String) : List (Option Key) :=
  (r.map fun row => row f).getD []

@[simp]
theorem recalled_none (f : String) : recalled none f = [] := rfl

@[simp]
theorem recalled_some (row : String → List (Option Key)) (f : String) :
    recalled (some row) f = row f := rfl

theorem recalled_update (rows : Rows) (oid n : Nat) (r : Option (String → List (Option Key)))
    (f : String) :
    recalled (Function.update rows oid r n) f =
      if n = oid then recalled r f else recalled (rows n) f := by
  by_cases h : n = oid
  · rw [h, Function.update_self, if_pos rfl]
  · rw [Function.update_of_ne h, if_neg h]

namespace ClassIndexes

variable {ρ : Type} {fam : String → Family} {ti : TypeInfo} {rows : Rows}
  {lost : Lost} {ci ci' : ClassIndexes} {oid : Nat}

/-- The keys of each sorted field belong to the field's family, and outside a
    bulk build its run sorts them. A key whose posting has become empty keeps
    its place in the run. -/
structure Sound (fam : String → Family) (ci : ClassIndexes) : Prop where
  ordered : ∀ f ∈ ci.sortedFields, fam f ≠ .nan
  keys : ∀ f ∈ ci.sortedFields, ∀ k, (ci.posting? f (some k)).isSome → k.family = fam f
  ascending : ci.building = false → ∀ f ∈ ci.sortedFields, Ascending Key.lt (ci.run f)
  run : ci.building = false → ∀ f ∈ ci.sortedFields, ∀ k,
    k ∈ ci.run f ↔ (ci.posting? f (some k)).isSome

/-- Two indexes differ in their postings, unique maps and runs only. Whatever enters
    a key keeps to this, so its effect can be stated on those three. -/
structure Frame (ci ci' : ClassIndexes) : Prop where
  extent : ci'.extent = ci.extent
  eqKeys : ci'.eq.keys = ci.eq.keys
  uniqueKeys : ci'.unique.keys = ci.unique.keys
  listFields : ci'.listFields = ci.listFields
  sortedFields : ci'.sortedFields = ci.sortedFields
  building : ci'.building = ci.building
  lastValues : ci'.lastValues = ci.lastValues
  needsLvRebuild : ci'.needsLvRebuild = ci.needsLvRebuild

/-- One index is another with an OID posted under the keys `P` describes. A unique
    key that somebody else held goes over to it, which is how a later row takes it
    from an earlier one. -/
structure Added (oid : Nat) (P : String → Option Key → Prop) (ci ci' : ClassIndexes) :
    Prop where
  frame : Frame ci ci'
  posting : ∀ f k n, n ∈ ci'.posting f k ↔
    (n = oid ∧ f ∈ ci.eq.keys ∧ P f k) ∨ n ∈ ci.posting f k
  holder : ∀ f k n, ci'.holder f k = some n ↔
    (n = oid ∧ f ∈ ci.unique.keys ∧ P f (some k)) ∨
      (¬(f ∈ ci.unique.keys ∧ P f (some k)) ∧ ci.holder f k = some n)

/-- An index stands for a set of rows, of which some have lost a unique key to
    another row. The postings and the memory have every key of a row, the unique map
    those that are not lost. -/
structure Represents (ti : TypeInfo) (rows : Rows) (lost : Lost) (ci : ClassIndexes) :
    Prop where
  eqKeys : ∀ f, f ∈ ci.eq.keys ↔ f ∈ ti.eqIndexFields
  uniqueKeys : ∀ f, f ∈ ci.unique.keys ↔ f ∈ ti.uniqueFields
  listFields : ∀ f, f ∈ ci.listFields ↔ f ∈ ti.listFields
  sortedFields : ∀ f, f ∈ ci.sortedFields ↔ f ∈ ti.sortedFields
  extent : ∀ oid, oid ∈ ci.extent ↔ (rows oid).isSome
  posting : ∀ f ∈ ti.eqIndexFields, ∀ k oid, oid ∈ ci.posting f k ↔ k ∈ recalled (rows oid) f
  holds : ∀ f ∈ ti.uniqueFields, ∀ k oid,
    ci.holder f k = some oid → some k ∈ recalled (rows oid) f
  held : ∀ f ∈ ti.uniqueFields, ∀ k oid,
    some k ∈ recalled (rows oid) f → ¬lost f k oid → ci.holder f k = some oid
  memory : ∀ oid, ∀ f ∈ ti.eqIndexFields, ∀ k,
    k ∈ recalled (ci.withLastValues.lastValues oid) f ↔ k ∈ recalled (rows oid) f
  uniqueMemory : ∀ oid, ∀ f ∈ ti.uniqueFields, ∀ k : Key,
    some k ∈ recalled (ci.withLastValues.lastValues oid) f ↔ some k ∈ recalled (rows oid) f

/-- Two indexes of one class answer alike: they differ at most in keys whose
    posting is empty and in what they remember. -/
structure Agree (ci ci' : ClassIndexes) : Prop where
  extent : ci.extent = ci'.extent
  eqKeys : ∀ f, f ∈ ci.eq.keys ↔ f ∈ ci'.eq.keys
  posting : ∀ f k, ci.posting f k = ci'.posting f k
  uniqueKeys : ∀ f, f ∈ ci.unique.keys ↔ f ∈ ci'.unique.keys
  holder : ∀ f k, ci.holder f k = ci'.holder f k
  run : ∀ f ∈ ci.sortedFields, (ci.run f).filter (fun k => (ci.posting f (some k)).Nonempty) =
    (ci'.run f).filter fun k => (ci'.posting f (some k)).Nonempty

theorem Represents.listContains (h : Represents ti rows lost ci) (f : String) :
    ci.listFields.contains f = ti.listFields.contains f := by
  rw [Bool.eq_iff_iff, List.contains_iff_mem, List.contains_iff_mem]
  exact h.listFields f

theorem Represents.sortedContains (h : Represents ti rows lost ci) (f : String) :
    ci.sortedFields.contains f = ti.sortedFields.contains f := by
  rw [Bool.eq_iff_iff, List.contains_iff_mem, List.contains_iff_mem]
  exact h.sortedFields f

theorem frame_refl (ci : ClassIndexes) : Frame ci ci :=
  ⟨rfl, rfl, rfl, rfl, rfl, rfl, rfl, rfl⟩

theorem frame_trans {ci'' : ClassIndexes} (h : Frame ci ci') (h' : Frame ci' ci'') :
    Frame ci ci'' :=
  ⟨h'.extent.trans h.extent, h'.eqKeys.trans h.eqKeys, h'.uniqueKeys.trans h.uniqueKeys,
    h'.listFields.trans h.listFields, h'.sortedFields.trans h.sortedFields,
    h'.building.trans h.building, h'.lastValues.trans h.lastValues,
    h'.needsLvRebuild.trans h.needsLvRebuild⟩

theorem added_refl (oid : Nat) (ci : ClassIndexes) : Added oid (fun _ _ => False) ci ci :=
  ⟨frame_refl ci, by simp, by simp⟩

theorem added_trans {ci'' : ClassIndexes} {P Q : String → Option Key → Prop}
    (h : Added oid P ci ci') (h' : Added oid Q ci' ci'') :
    Added oid (fun f k => P f k ∨ Q f k) ci ci'' := by
  refine ⟨frame_trans h.frame h'.frame, fun f k n => ?_, fun f k n => ?_⟩
  · rw [h'.posting, h.posting, h.frame.eqKeys]
    tauto
  · rw [h'.holder, h.holder, h.frame.uniqueKeys]
    tauto

theorem added_congr {P Q : String → Option Key → Prop} (hPQ : ∀ f k, P f k ↔ Q f k)
    (h : Added oid P ci ci') : Added oid Q ci ci' := by
  have hfun : P = Q := funext fun f => funext fun k => propext (hPQ f k)
  rw [← hfun]
  exact h

theorem contains_keys {κ α : Type} [DecidableEq κ] (d : Dict κ α) (k : κ) :
    d.contains k = decide (k ∈ d.keys) := by
  rw [Bool.eq_iff_iff, Dict.contains_iff, decide_eq_true_eq]

theorem mem_keys_of_holder {f : String} {k : Key} {n : Nat} (h : ci.holder f k = some n) :
    f ∈ ci.unique.keys := by
  rw [holder] at h
  rcases Option.bind_eq_some_iff.mp h with ⟨m, hm, -⟩
  exact (Dict.mem_keys_iff _ _).mpr ⟨m, hm⟩

theorem posting?_isSome_keys {f : String} {k : Option Key} (h : (ci.posting? f k).isSome) :
    f ∈ ci.eq.keys := by
  rw [posting?, Option.isSome_iff_exists] at h
  rcases h with ⟨p, hp⟩
  rcases Option.bind_eq_some_iff.mp hp with ⟨col, hcol, -⟩
  exact (Dict.mem_keys_iff _ _).mpr ⟨col, hcol⟩

/-- A change of the sorted runs and of what the key objects are changes nothing
    else. -/
theorem frame_sortedKeys (decs : String → Key → Bool) (runs : Dict String (List Key)) :
    Frame ci { ci with decimals := decs, sortedKeys := runs } :=
  ⟨rfl, rfl, rfl, rfl, rfl, rfl, rfl, rfl⟩

theorem frame_addPosting (f : String) (k : Option Key) : Frame ci (ci.addPosting oid f k) :=
  ⟨rfl, Dict.keys_mapVal _ _, rfl, rfl, rfl, rfl, rfl, rfl⟩

theorem frame_setHolder (f : String) (k : Key) : Frame ci (ci.setHolder oid f k) :=
  ⟨rfl, rfl, Dict.keys_mapVal _ _, rfl, rfl, rfl, rfl, rfl⟩

/-- A new key of the field's family enters the run without raising. -/
theorem enterSortedRun_spec (hs : Sound fam ci) (f : String) (k : Key)
    (hfam : f ∈ ci.sortedFields → k.family = fam f) (hnew : ci.posting? f (some k) = none) :
    ∃ runs, enterSortedRun f k ci = .ok () { ci with sortedKeys := runs } ∧
      (ci.building = false → ∀ g ∈ ci.sortedFields,
        Ascending Key.lt (runs.getD g []) ∧
          ∀ j, j ∈ runs.getD g [] ↔ (j = k ∧ g = f) ∨ j ∈ ci.run g) := by
  by_cases hin : f ∈ ci.sortedFields ∧ ci.building = false
  · rcases hin with ⟨hf, hbuild⟩
    have hrun := hs.run hbuild f hf
    have hmem : ∀ a ∈ ci.run f, a.family = fam f := fun a ha => hs.keys f hf a ((hrun a).mp ha)
    have hguard : ((ci.run f).head?.map (mixesTemporal k)).getD false = false := by
      cases hhead : (ci.run f).head? with
      | none => rfl
      | some a =>
          have ha := hmem a (List.mem_of_mem_head? (by rw [hhead]; exact rfl))
          simp [mixesTemporal, hfam hf, ha]
    have hnotin : k ∉ ci.run f := by
      rw [hrun, hnew]
      exact Bool.false_ne_true
    -- The run and the key are of one family, so it does not matter what the objects are.
    rcases insort_spec (Key.orderedOn_ltOf (ci.decimals f) (fam f) (hs.ordered f hf)) hmem (hfam hf)
      ((Key.ascending_ltOf _ (hs.ordered f hf) hmem).mpr (hs.ascending hbuild f hf)) hnotin with
      ⟨ys, hins, hasc, hys⟩
    have hysf : ∀ a ∈ ys, a.family = fam f := fun a ha =>
      ((hys a).mp ha).elim (fun hc => hc ▸ hfam hf) (hmem a)
    refine ⟨ci.sortedKeys.set f ys, ?_, fun _ g hg => ?_⟩
    · have hcond : (ci.sortedFields.contains f && !ci.building) = true := by simp [hf, hbuild]
      rw [enterSortedRun, bind_run_ok (get_run ci), if_pos hcond, hguard]
      rw [bind_run_ok (raiseIf_ok_iff (u := ()).mpr ⟨rfl, rfl⟩), hins]
      rfl
    · by_cases hgf : g = f
      · subst hgf
        simp only [Dict.getD, Dict.get?_set_self, Option.getD_some]
        exact ⟨(Key.ascending_ltOf _ (hs.ordered g hf) hysf).mp hasc, fun j => by rw [hys]; simp⟩
      · simp only [Dict.getD, Dict.get?_set_ne _ _ hgf, hgf, and_false, false_or]
        exact ⟨hs.ascending hbuild g hg, fun j => Iff.rfl⟩
  · refine ⟨ci.sortedKeys, ?_, fun hbuild g hg => ⟨hs.ascending hbuild g hg, fun j => ?_⟩⟩
    · have hcond : ¬(ci.sortedFields.contains f && !ci.building) = true := by
        simpa using hin
      rw [enterSortedRun, bind_run_ok (get_run ci), if_neg hcond]
      rfl
    · have hgf : g ≠ f := fun hc => hin ⟨hc ▸ hg, hbuild⟩
      simp only [hgf, and_false, false_or]
      rfl

theorem sound_noteObject (hs : Sound fam ci) (f : String) (k : Key) (decimal : Bool) :
    Sound fam (ci.noteObject f k decimal) :=
  ⟨hs.ordered, hs.keys, hs.ascending, hs.run⟩

/-- A key of the field's family enters the run unless it has an entry. -/
theorem enterNewKey_spec (hs : Sound fam ci) (f : String) (decimalAt : Key → Bool) (k : Option Key)
    (hfam : f ∈ ci.sortedFields → ∀ key, k = some key → key.family = fam f) :
    ∃ decs runs, enterNewKey f decimalAt k ci =
        .ok () { ci with decimals := decs, sortedKeys := runs } ∧
      (ci.building = false → ∀ g ∈ ci.sortedFields,
        Ascending Key.lt (runs.getD g []) ∧
          ∀ j, j ∈ runs.getD g [] ↔ (k = some j ∧ g = f) ∨ j ∈ ci.run g) := by
  -- None is in no run, and a key with a posting has been entered before.
  cases k with
  | none =>
      refine ⟨ci.decimals, ci.sortedKeys, rfl,
        fun hbuild g hg => ⟨hs.ascending hbuild g hg, fun j => ?_⟩⟩
      simp only [reduceCtorEq, false_and, false_or]
      rfl
  | some key =>
      cases hpost : ci.posting? f (some key) with
      | none =>
          rcases enterSortedRun_spec (sound_noteObject hs f key (decimalAt key)) f key
            (fun hf => hfam hf key rfl) hpost with ⟨runs, hrun, hruns⟩
          refine ⟨(ci.noteObject f key (decimalAt key)).decimals, runs, ?_, fun hbuild g hg => ?_⟩
          · rw [enterNewKey, bind_run_ok (get_run ci)]
            simp only [hpost]
            rw [bind_run_ok (modify_run _ ci)]
            exact hrun
          · rcases hruns hbuild g hg with ⟨hasc, hmem⟩
            refine ⟨hasc, fun j => ?_⟩
            rw [hmem, Option.some.injEq, eq_comm (a := key)]
            rfl
      | some p =>
          refine ⟨ci.decimals, ci.sortedKeys, ?_,
            fun hbuild g hg => ⟨hs.ascending hbuild g hg, fun j => ?_⟩⟩
          · rw [enterNewKey, bind_run_ok (get_run ci)]
            simp only [hpost]
            rfl
          · -- The key is in the run already.
            refine ⟨Or.inr, ?_⟩
            rintro (⟨hj, rfl⟩ | hj)
            · rw [Option.some.injEq] at hj
              rw [← hj]
              exact (hs.run hbuild g hg key).mpr (by rw [hpost]; rfl)
            · exact hj

theorem posting?_sortedKeys (decs : String → Key → Bool) (runs : Dict String (List Key))
    (f : String) (k : Option Key) :
    ({ ci with decimals := decs, sortedKeys := runs } : ClassIndexes).posting? f k =
      ci.posting? f k := rfl

/-- Posting an OID under one key, with the runs that hold the key. -/
theorem post_spec (hs : Sound fam ci) (oid : Nat) (f : String) (k : Option Key)
    (hfam : f ∈ ci.sortedFields → ∀ key, k = some key → key.family = fam f)
    (hf : f ∈ ci.eq.keys) (decs : String → Key → Bool) (runs : Dict String (List Key))
    (hruns : ci.building = false → ∀ g ∈ ci.sortedFields,
      Ascending Key.lt (runs.getD g []) ∧
        ∀ j, j ∈ runs.getD g [] ↔ (k = some j ∧ g = f) ∨ j ∈ ci.run g) :
    Sound fam (addPosting oid f k { ci with decimals := decs, sortedKeys := runs }) := by
  have hcont : ci.eq.contains f = true := (Dict.contains_iff _ _).mpr hf
  have hentry : ∀ g j, (posting? (addPosting oid f k
      { ci with decimals := decs, sortedKeys := runs }) g j).isSome ↔
      (g = f ∧ j = k) ∨ (ci.posting? g j).isSome := by
    intro g j
    rw [posting?_addPosting, posting?_sortedKeys]
    by_cases h : g = f ∧ j = k
    · simp [h, hcont]
    · have hno : ¬(g = f ∧ j = k ∧ ci.eq.contains f = true) := fun hc => h ⟨hc.1, hc.2.1⟩
      rw [if_neg hno]
      simp only [h, false_or]
  refine ⟨hs.ordered, fun g hg j hj => ?_, fun hbuild g hg => (hruns hbuild g hg).1,
    fun hbuild g hg j => ?_⟩
  · rcases (hentry g (some j)).mp hj with ⟨rfl, hjk⟩ | hj
    · exact hfam hg j hjk.symm
    · exact hs.keys g hg j hj
  · rw [hentry]
    have hmem := (hruns hbuild g hg).2 j
    rw [hs.run hbuild g hg j] at hmem
    rw [eq_comm (a := some j), and_comm (a := g = f)]
    exact hmem

/-- Indexing an OID under one key posts it there and nowhere else. -/
theorem addKey_spec (hs : Sound fam ci) (oid : Nat) (f : String) (decimalAt : Key → Bool)
    (k : Option Key) (hfam : f ∈ ci.sortedFields → ∀ key, k = some key → key.family = fam f) :
    ∃ ci', addKey oid f decimalAt k ci = .ok () ci' ∧ Added oid (fun g j => g = f ∧ j = k) ci ci' ∧
      Sound fam ci' := by
  -- Holding the key touches the unique maps only.
  have hhold : ∀ c : ClassIndexes, Sound fam c → Sound fam (c.holdKey oid f k) := by
    intro c hc
    cases k with
    | none => exact hc
    | some key => exact ⟨hc.ordered, hc.keys, hc.ascending, hc.run⟩
  have hholder : ∀ (c : ClassIndexes) g j n, (c.holdKey oid f k).holder g j = some n ↔
      (n = oid ∧ g ∈ c.unique.keys ∧ g = f ∧ some j = k) ∨
        (¬(g ∈ c.unique.keys ∧ g = f ∧ some j = k) ∧ c.holder g j = some n) := by
    intro c g j n
    cases k with
    | none => simp [holdKey]
    | some key =>
        rw [holdKey, holder_setHolder, contains_keys]
        by_cases h : g = f ∧ j = key
        · rcases h with ⟨rfl, rfl⟩
          by_cases hg : g ∈ c.unique.keys
          · simp [hg, eq_comm]
          · simp [hg]
        · have hno : ¬(g = f ∧ j = key ∧ decide (f ∈ c.unique.keys) = true) :=
            fun hc => h ⟨hc.1, hc.2.1⟩
          have hno' : ¬(g ∈ c.unique.keys ∧ g = f ∧ some j = some key) :=
            fun hc => h ⟨hc.2.1, Option.some.inj hc.2.2⟩
          rw [if_neg hno]
          tauto
  have hframe : ∀ c : ClassIndexes, Frame c (c.holdKey oid f k) := by
    intro c
    cases k with
    | none => exact frame_refl c
    | some key => exact frame_setHolder f key
  have hposting : ∀ (c : ClassIndexes) g j, (c.holdKey oid f k).posting g j = c.posting g j := by
    intro c g j
    cases k <;> rfl
  by_cases hf : f ∈ ci.eq.keys
  · have hcont : ci.eq.contains f = true := (Dict.contains_iff _ _).mpr hf
    rcases enterNewKey_spec hs f decimalAt k hfam with ⟨decs, runs, hrun, hruns⟩
    refine ⟨(addPosting oid f k { ci with decimals := decs, sortedKeys := runs }).holdKey oid f k,
      ?_, ⟨?_, ?_, ?_⟩, hhold _ (post_spec hs oid f k hfam hf decs runs hruns)⟩
    · rw [addKey, bind_run_ok (get_run ci), if_pos hcont, bind_run_ok hrun]
      rfl
    · exact frame_trans (frame_trans (frame_sortedKeys decs runs) (frame_addPosting f k)) (hframe _)
    · intro g j n
      rw [hposting, posting_addPosting { ci with decimals := decs, sortedKeys := runs } oid f g k j
        hcont]
      refine or_congr ?_ Iff.rfl
      constructor
      · rintro ⟨hn, rfl, hj⟩
        exact ⟨hn, hf, rfl, hj⟩
      · rintro ⟨hn, -, hg, hj⟩
        exact ⟨hn, hg, hj⟩
    · intro g j n
      rw [hholder]
      rfl
  · have hcont : ¬ci.eq.contains f = true := fun hc => hf ((Dict.contains_iff _ _).mp hc)
    refine ⟨ci.holdKey oid f k, ?_, ⟨hframe ci, ?_, hholder ci⟩, hhold ci hs⟩
    · rw [addKey, bind_run_ok (get_run ci), if_neg hcont]
      rfl
    · intro g j n
      rw [hposting]
      refine ⟨Or.inr, ?_⟩
      rintro (⟨-, hg, rfl, -⟩ | hn)
      · exact absurd hg hf
      · exact hn

/-- Indexing an OID under several keys of one field. -/
theorem addKeys_spec (oid : Nat) (f : String) (decimalAt : Key → Bool) (keys : List (Option Key)) :
    ∀ ci : ClassIndexes, Sound fam ci →
      (f ∈ ci.sortedFields → ∀ key, some key ∈ keys → key.family = fam f) →
      ∃ ci', keys.forM (addKey oid f decimalAt) ci = .ok () ci' ∧
        Added oid (fun g j => g = f ∧ j ∈ keys) ci ci' ∧ Sound fam ci' := by
  induction keys with
  | nil =>
      intro ci hs _
      exact ⟨ci, rfl, added_congr (by simp) (added_refl oid ci), hs⟩
  | cons k ks ih =>
      intro ci hs hfam
      rcases addKey_spec hs oid f decimalAt k
        (fun hf key hkey => hfam hf key (hkey ▸ List.mem_cons_self)) with ⟨ci₁, hrun, hadd, hs₁⟩
      rcases ih ci₁ hs₁ (fun hf key hkey =>
        hfam (hadd.frame.sortedFields ▸ hf) key (List.mem_cons_of_mem k hkey)) with
        ⟨ci₂, hruns, hadds, hs₂⟩
      refine ⟨ci₂, ?_, added_congr (fun g j => ?_) (added_trans hadd hadds), hs₂⟩
      · rw [forM_cons_run, bind_run_ok hrun]
        exact hruns
      · rw [List.mem_cons]
        tauto

/-- Indexing a field value whose keys are known. -/
theorem indexField_spec (hs : Sound fam ci) (oid : Nat) (f : String) (v : Val ρ)
    (keys : List (Option Key)) (hkeys : v.indexKeys (ci.listFields.contains f) = .ok keys)
    (hfam : f ∈ ci.sortedFields → ∀ key, some key ∈ keys → key.family = fam f) :
    ∃ ci', indexField oid f v ci = .ok keys ci' ∧
      Added oid (fun g j => g = f ∧ j ∈ keys) ci ci' ∧ Sound fam ci' := by
  rcases addKeys_spec oid f v.decimalAt keys ci hs hfam with ⟨ci', hrun, hadd, hs'⟩
  refine ⟨ci', ?_, hadd, hs'⟩
  rw [indexField, bind_run_ok (get_run ci), hkeys, Except.mapError]
  rw [bind_run_ok (ofExcept_run_ok rfl ci), bind_run_ok hrun]
  rfl

/-- Indexing every field of an entry, in the loop of `insert`. -/
theorem indexFields_spec (oid : Nat) (values : List (String × Val ρ))
    (keysOf : String → List (Option Key)) :
    ∀ ci : ClassIndexes, Sound fam ci →
      (∀ e ∈ values, e.2.indexKeys (ci.listFields.contains e.1) = .ok (keysOf e.1)) →
      (∀ f ∈ ci.sortedFields, ∀ key, some key ∈ keysOf f → key.family = fam f) →
      ∃ ci', values.mapM (indexEntry oid) ci = .ok (values.map fun e => (e.1, keysOf e.1)) ci' ∧
        Added oid (fun g j => g ∈ values.map Prod.fst ∧ j ∈ keysOf g) ci ci' ∧
        Sound fam ci' := by
  induction values with
  | nil =>
      intro ci hs _ _
      exact ⟨ci, rfl, added_congr (by simp) (added_refl oid ci), hs⟩
  | cons e es ih =>
      intro ci hs hkeys hfam
      -- The first value, and the rest of them on what it left.
      rcases indexField_spec hs oid e.1 e.2 (keysOf e.1) (hkeys e List.mem_cons_self)
        (fun hf => hfam e.1 hf) with ⟨ci₁, hrun, hadd, hs₁⟩
      rcases ih ci₁ hs₁
        (fun d hd => by
          rw [hadd.frame.listFields]
          exact hkeys d (List.mem_cons_of_mem e hd))
        (fun f hf => hfam f (hadd.frame.sortedFields ▸ hf)) with ⟨ci₂, hruns, hadds, hs₂⟩
      refine ⟨ci₂, ?_, added_congr (fun g j => ?_) (added_trans hadd hadds), hs₂⟩
      · rw [List.mapM_cons]
        have hentry : indexEntry oid e ci = .ok (e.1, keysOf e.1) ci₁ := by
          rw [indexEntry, bind_run_ok hrun]
          rfl
        rw [bind_run_ok hentry, bind_run_ok hruns]
        rfl
      -- A key was added by the first value or by one of the rest.
      · rw [List.map_cons, List.mem_cons]
        constructor
        · rintro (⟨rfl, hj⟩ | ⟨hg, hj⟩)
          · exact ⟨Or.inl rfl, hj⟩
          · exact ⟨Or.inr hg, hj⟩
        · rintro ⟨rfl | hg, hj⟩
          · exact Or.inl ⟨rfl, hj⟩
          · exact Or.inr ⟨hg, hj⟩

section Memory

theorem posting_withLastValues (f : String) (k : Option Key) :
    ci.withLastValues.posting f k = ci.posting f k := by
  rw [withLastValues]
  split <;> rfl

theorem holder_withLastValues (f : String) (k : Key) :
    ci.withLastValues.holder f k = ci.holder f k := by
  rw [withLastValues]
  split <;> rfl

theorem needsLvRebuild_withLastValues (ci : ClassIndexes) :
    ci.withLastValues.needsLvRebuild = false := by
  rw [withLastValues]
  split
  · rfl
  · rename_i h
    exact Bool.eq_false_of_not_eq_true h

theorem withLastValues_eq (h : ci.needsLvRebuild = false) : ci.withLastValues = ci := by
  rw [withLastValues, h]
  rfl

theorem sound_withLastValues (hs : Sound fam ci) : Sound fam ci.withLastValues := by
  rw [withLastValues]
  split
  · exact ⟨hs.ordered, hs.keys, hs.ascending, hs.run⟩
  · exact hs

/-- Everything but the memory is as it was before the memory was rebuilt. -/
theorem withLastValues_frame (ci : ClassIndexes) : ci.withLastValues.extent = ci.extent ∧
    ci.withLastValues.eq = ci.eq ∧ ci.withLastValues.unique = ci.unique ∧
    ci.withLastValues.listFields = ci.listFields ∧
    ci.withLastValues.sortedFields = ci.sortedFields := by
  rw [withLastValues]
  split <;> exact ⟨rfl, rfl, rfl, rfl, rfl⟩

theorem represents_withLastValues (h : Represents ti rows lost ci) :
    Represents ti rows lost ci.withLastValues := by
  rcases withLastValues_frame ci with ⟨hext, heq, huniq, hlist, hsort⟩
  refine ⟨?_, ?_, hlist ▸ h.listFields, hsort ▸ h.sortedFields, ?_, ?_, ?_, ?_, ?_, ?_⟩
  · rw [heq]
    exact h.eqKeys
  · rw [huniq]
    exact h.uniqueKeys
  · rw [hext]
    exact h.extent
  · simp only [posting_withLastValues]
    exact h.posting
  · simp only [holder_withLastValues]
    exact h.holds
  · simp only [holder_withLastValues]
    exact h.held
  · rw [withLastValues_eq (needsLvRebuild_withLastValues ci)]
    exact h.memory
  · rw [withLastValues_eq (needsLvRebuild_withLastValues ci)]
    exact h.uniqueMemory

/-- Forgetting an OID that is remembered as its row takes the row out of the
    postings and the unique maps. -/
theorem represents_remove (h : Represents ti rows lost ci) (oid : Nat) :
    Represents ti (Function.update rows oid none) lost (ci.remove oid) := by
  rw [remove]
  have hneeds := needsLvRebuild_withLastValues ci
  have hw := represents_withLastValues h
  generalize ci.withLastValues = c at hneeds hw ⊢
  have hmem := hw.memory oid
  have humem := hw.uniqueMemory oid
  rw [withLastValues_eq hneeds] at hmem humem
  -- The memory of the other OIDs is left alone.
  have hlast : (c.forget oid).lastValues = Function.update c.lastValues oid none := by
    rw [forget]
    cases hold : c.lastValues oid with
    | some old => rfl
    | none => exact (Function.update_eq_self_iff.mpr hold.symm).symm
  have hneeds' : (c.forget oid).needsLvRebuild = false := by
    rw [forget]
    split <;> exact hneeds
  have hposting : ∀ f k n, n ∈ (c.forget oid).posting f k ↔
      n ∈ c.posting f k ∧ ¬(k ∈ recalled (c.lastValues oid) f ∧ n = oid) := by
    intro f k n
    rw [forget]
    cases hold : c.lastValues oid with
    | some old => exact posting_unindex c oid f old k n
    | none => simp
  have hholder : ∀ f k n, (c.forget oid).holder f k = some n ↔
      c.holder f k = some n ∧ ¬(some k ∈ recalled (c.lastValues oid) f ∧ n = oid) := by
    intro f k n
    rw [forget]
    cases hold : c.lastValues oid with
    | some old => exact holder_unindex c oid f old k n
    | none => simp
  have hkeys : (c.forget oid).eq.keys = c.eq.keys ∧ (c.forget oid).unique.keys = c.unique.keys ∧
      (c.forget oid).listFields = c.listFields ∧ (c.forget oid).sortedFields = c.sortedFields ∧
      (c.forget oid).extent = c.extent := by
    rw [forget]
    split
    · exact ⟨Dict.keys_mapVal _ _, Dict.keys_mapVal _ _, rfl, rfl, rfl⟩
    · exact ⟨rfl, rfl, rfl, rfl, rfl⟩
  rcases hkeys with ⟨hek, huk, hlf, hsf, hex⟩
  have hself : ((c.forget oid).setExtent ((c.forget oid).extent.erase oid)).withLastValues =
      (c.forget oid).setExtent ((c.forget oid).extent.erase oid) := withLastValues_eq hneeds'
  refine ⟨fun f => ?_, fun f => ?_, hlf ▸ hw.listFields, hsf ▸ hw.sortedFields,
    fun n => ?_, fun f hf k n => ?_, fun f hf k n hn => ?_, fun f hf k n hn hd => ?_,
    fun n f hf k => ?_, fun n f hf k => ?_⟩
  · rw [setExtent, hek, hw.eqKeys]
  · rw [setExtent, huk, hw.uniqueKeys]
  · rw [setExtent, hex, Finset.mem_erase, hw.extent]
    by_cases hn : n = oid
    · simp [hn]
    · simp [hn]
  · refine Iff.trans (hposting f k n) ?_
    rw [hw.posting f hf, hmem f hf, recalled_update]
    by_cases hn : n = oid
    · simp [hn]
    · simp [hn]
  · rcases (hholder f k n).mp hn with ⟨hn, hno⟩
    have hrow := hw.holds f hf k n hn
    have hne : n ≠ oid := fun hc => hno ⟨(humem f hf k).mpr (hc ▸ hrow), hc⟩
    rw [recalled_update, if_neg hne]
    exact hrow
  · rw [recalled_update] at hn
    by_cases hc : n = oid
    · rw [if_pos hc] at hn
      exact absurd hn List.not_mem_nil
    · rw [if_neg hc] at hn
      exact (hholder f k n).mpr ⟨hw.held f hf k n hn hd, fun hno => hc hno.2⟩
  · rw [hself, setExtent, hlast, recalled_update, recalled_update]
    by_cases hc : n = oid
    · rw [if_pos hc, if_pos hc]
    · rw [if_neg hc, if_neg hc]
      have hothers := hw.memory n f hf k
      rw [withLastValues_eq hneeds] at hothers
      exact hothers
  · rw [hself, setExtent, hlast, recalled_update, recalled_update]
    by_cases hc : n = oid
    · rw [if_pos hc, if_pos hc]
    · rw [if_neg hc, if_neg hc]
      have hothers := hw.uniqueMemory n f hf k
      rw [withLastValues_eq hneeds] at hothers
      exact hothers

theorem sound_forget (hs : Sound fam ci) (oid : Nat) : Sound fam (ci.forget oid) := by
  rw [forget]
  split
  · rename_i old _
    have hentry : ∀ f k, ((ci.unindex oid old).posting? f k).isSome = (ci.posting? f k).isSome := by
      intro f k
      rw [posting?_unindex, Option.isSome_map]
    refine ⟨hs.ordered, fun f hf k hk => ?_, hs.ascending, fun hb f hf k => ?_⟩
    · refine hs.keys f hf k ?_
      rw [← hentry f (some k)]
      exact hk
    · refine Iff.trans (hs.run hb f hf k) ?_
      rw [← hentry f (some k)]
      rfl
  · exact hs

theorem sound_remove (hs : Sound fam ci) (oid : Nat) : Sound fam (ci.remove oid) := by
  have hs' := sound_forget (sound_withLastValues hs) oid
  exact ⟨hs'.ordered, hs'.keys, hs'.ascending, hs'.run⟩

end Memory

theorem snapshot_map (fields : List String) (keysOf : String → List (Option Key)) (f : String)
    (hf : f ∈ fields) : snapshot (fields.map fun g => (g, keysOf g)) f = keysOf f := by
  have hfind : (fields.map fun g => (g, keysOf g)).find? (fun e => e.1 = f) =
      some (f, keysOf f) := by
    induction fields with
    | nil => exact absurd hf List.not_mem_nil
    | cons g gs ih =>
        by_cases hg : g = f
        · simp [hg]
        · have hgs : f ∈ gs := (List.mem_cons.mp hf).resolve_left fun hc => hg hc.symm
          simp [hg, ih hgs]
  rw [snapshot, hfind]
  rfl

/-- The values of some fields of a row, in their order. -/
def entryIn (fields : List String) (row : String → Val ρ) : List (String × Val ρ) :=
  fields.map fun f => (f, row f)

/-- The entry a commit collects for a row: its maintained fields. -/
def entryOf (ti : TypeInfo) (row : String → Val ρ) : List (String × Val ρ) :=
  entryIn ti.relevant row

theorem mem_relevant (ti : TypeInfo) (f : String) : f ∈ ti.relevant ↔ f ∈ ti.maintainedFields :=
  ti.relevant_perm.mem_iff

/-- Folding in a write replaces one row, whatever order its fields come in. A
    unique key of the new row may be held by a row that is to lose it. -/
theorem represents_insert (h : Represents ti rows lost ci) (hs : Sound fam ci) (oid : Nat)
    {fields : List String} (hfields : ∀ f, f ∈ fields ↔ f ∈ ti.maintainedFields)
    (row : String → Val ρ)
    (hkeyed : ∀ f ∈ ti.maintainedFields,
      (row f).indexKeys (ti.listFields.contains f) = .ok (rowKeys ti row f))
    (hordered : ∀ f ∈ ti.sortedFields, ∀ k, some k ∈ rowKeys ti row f → k.family = fam f)
    (hfree : ∀ f ∈ ti.uniqueFields, ∀ k n, some k ∈ rowKeys ti row f → n ≠ oid →
      some k ∈ recalled (rows n) f → lost f k n) :
    ∃ ci', insert oid (entryIn fields row) ci = .ok () ci' ∧
      Represents ti (Function.update rows oid (some (rowKeys ti row))) lost ci' ∧
      Sound fam ci' ∧ ci'.building = ci.building := by
  -- Without its extent change, the first half of an insert is a remove.
  have hrem := represents_remove h oid
  have hs₀ := sound_forget (sound_withLastValues hs) oid
  have hneeds₀ : (ci.withLastValues.forget oid).needsLvRebuild = false := by
    rw [forget]
    split <;> exact needsLvRebuild_withLastValues ci
  have hbuild₀ : (ci.withLastValues.forget oid).building = ci.building := by
    rw [forget, withLastValues]
    split <;> split <;> rfl
  rw [remove] at hrem
  generalize hc₀ : ci.withLastValues.forget oid = c₀ at hrem hs₀ hneeds₀ hbuild₀
  have hs₁ : Sound fam (c₀.setExtent (Insert.insert oid c₀.extent)) :=
    ⟨hs₀.ordered, hs₀.keys, hs₀.ascending, hs₀.run⟩
  have hmaint : ∀ f, f ∈ (entryIn fields row).map Prod.fst ↔ f ∈ ti.maintainedFields := by
    intro f
    rw [entryIn, List.map_map, ← hfields]
    simp
  rcases indexFields_spec oid (entryIn fields row) (rowKeys ti row) _ hs₁
    (fun e he => by
      rcases List.mem_map.mp he with ⟨f, hf, rfl⟩
      change (row f).indexKeys (c₀.listFields.contains f) = _
      rw [show c₀.listFields.contains f = ti.listFields.contains f from hrem.listContains f]
      exact hkeyed f ((hfields f).mp hf))
    (fun f hf => hordered f (by
      exact (hrem.sortedFields f).mp hf)) with ⟨c₂, hrun, hadd, hs₂⟩
  refine ⟨c₂.setMemory oid (snapshot ((entryIn fields row).map fun e => (e.1, rowKeys ti row e.1))),
    ?_, ?_, ⟨hs₂.ordered, hs₂.keys, hs₂.ascending, hs₂.run⟩,
    hadd.frame.building.trans hbuild₀⟩
  · rw [insert, bind_run_ok (modify_run _ ci), hc₀, bind_run_ok (modify_run _ c₀),
      bind_run_ok hrun]
    rfl
  · have hmem : ∀ n f, f ∈ ti.maintainedFields → recalled ((c₂.setMemory oid
        (snapshot ((entryIn fields row).map fun e => (e.1, rowKeys ti row e.1)))).withLastValues.lastValues
          n) f = if n = oid then rowKeys ti row f else recalled (c₀.lastValues n) f := by
      intro n f hf
      have hneeds₂ : (c₂.setMemory oid (snapshot ((entryIn fields row).map fun e =>
          (e.1, rowKeys ti row e.1)))).needsLvRebuild = false :=
        hadd.frame.needsLvRebuild.trans hneeds₀
      rw [withLastValues_eq hneeds₂, setMemory, recalled_update, hadd.frame.lastValues]
      by_cases hn : n = oid
      · rw [if_pos hn, if_pos hn, recalled_some, entryIn, List.map_map]
        exact snapshot_map _ _ f ((hfields f).mpr hf)
      · rw [if_neg hn, if_neg hn]
        rfl
    have hmem₀ : (c₀.setExtent (c₀.extent.erase oid)).withLastValues.lastValues = c₀.lastValues := by
      rw [withLastValues_eq (show (c₀.setExtent (c₀.extent.erase oid)).needsLvRebuild = false
        from hneeds₀)]
      rfl
    refine ⟨fun f => ?_, fun f => ?_, hadd.frame.listFields ▸ hrem.listFields,
      hadd.frame.sortedFields ▸ hrem.sortedFields, fun n => ?_, fun f hf k n => ?_,
      fun f hf k n hn => ?_, fun f hf k n hn hd => ?_, fun n f hf k => ?_, fun n f hf k => ?_⟩
    · rw [← hrem.eqKeys, setMemory, hadd.frame.eqKeys]
      rfl
    · rw [← hrem.uniqueKeys, setMemory, hadd.frame.uniqueKeys]
      rfl
    · have hext := hrem.extent n
      rw [setExtent, Finset.mem_erase] at hext
      rw [setMemory, hadd.frame.extent, setExtent, Finset.mem_insert]
      by_cases hn : n = oid
      · simp [hn]
      · rw [Function.update_of_ne hn] at hext ⊢
        simpa [hn] using hext
    · have hpost := hrem.posting f hf k n
      have hfm : f ∈ ti.maintainedFields := (ti.mem_maintainedFields f).mpr (Or.inl hf)
      refine Iff.trans (hadd.posting f k n) ?_
      rw [hmaint]
      change _ ∨ n ∈ c₀.posting f k ↔ _
      rw [show n ∈ c₀.posting f k ↔ _ from hpost, recalled_update, recalled_update]
      have hek : f ∈ (c₀.setExtent (Insert.insert oid c₀.extent)).eq.keys := (hrem.eqKeys f).mpr hf
      by_cases hn : n = oid
      · simp [hn, hfm, hek]
      · simp [hn]
    · rcases (hadd.holder f k n).mp hn with ⟨rfl, -, -, hk⟩ | ⟨-, hn⟩
      · rw [recalled_update, if_pos rfl]
        exact hk
      · have hrow' := hrem.holds f hf k n hn
        rw [recalled_update] at hrow' ⊢
        by_cases hc : n = oid
        · rw [if_pos hc] at hrow'
          exact absurd hrow' List.not_mem_nil
        · rw [if_neg hc] at hrow' ⊢
          exact hrow'
    · have hfm : f ∈ ti.maintainedFields := (ti.mem_maintainedFields f).mpr (Or.inr hf)
      have huk : f ∈ (c₀.setExtent (Insert.insert oid c₀.extent)).unique.keys :=
        (hrem.uniqueKeys f).mpr hf
      refine (hadd.holder f k n).mpr ?_
      rw [recalled_update] at hn
      by_cases hc : n = oid
      · rw [if_pos hc] at hn
        exact Or.inl ⟨hc, huk, (hmaint f).mpr hfm, hn⟩
      · rw [if_neg hc] at hn
        refine Or.inr ⟨fun hno => hd (hfree f hf k n hno.2.2 hc hn), ?_⟩
        refine hrem.held f hf k n ?_ hd
        rw [recalled_update, if_neg hc]
        exact hn
    · rw [hmem n f ((ti.mem_maintainedFields f).mpr (Or.inl hf)), recalled_update]
      have hold := hrem.memory n f hf k
      rw [hmem₀, recalled_update] at hold
      by_cases hc : n = oid
      · rw [if_pos hc, if_pos hc]
        rfl
      · rw [if_neg hc] at hold ⊢
        rw [if_neg hc]
        exact hold
    · rw [hmem n f ((ti.mem_maintainedFields f).mpr (Or.inr hf)), recalled_update]
      have hold := hrem.uniqueMemory n f hf k
      rw [hmem₀, recalled_update] at hold
      by_cases hc : n = oid
      · rw [if_pos hc, if_pos hc]
        rfl
      · rw [if_neg hc] at hold ⊢
        rw [if_neg hc]
        exact hold

/-- Only the keys that rows still hold can be lost. -/
theorem represents_mono (h : Represents ti rows lost ci) {lost' : Lost}
    (hl : ∀ f k n, some k ∈ recalled (rows n) f → lost f k n → lost' f k n) :
    Represents ti rows lost' ci :=
  { h with held := fun f hf k n hn hno => h.held f hf k n hn fun hc => hno (hl f k n hn hc) }

theorem mem_run_iff_of_nonempty (hs : Sound fam ci) (hb : ci.building = false) {f : String}
    (hf : f ∈ ci.sortedFields) (k : Key) :
    k ∈ (ci.run f).filter (fun k => (ci.posting f (some k)).Nonempty) ↔
      (ci.posting f (some k)).Nonempty := by
  rw [List.mem_filter, decide_eq_true_eq, and_iff_right_iff_imp]
  rintro ⟨n, hn⟩
  rcases (mem_posting_iff ci f (some k) n).mp hn with ⟨p, hp, -⟩
  rw [hs.run hb f hf, hp]
  rfl

/-- Two indexes of the same rows agree. -/
theorem represents_ext (h : Represents ti rows noneLost ci) (hs : Sound fam ci)
    (hb : ci.building = false) (h' : Represents ti rows noneLost ci')
    (hs' : Sound fam ci') (hb' : ci'.building = false) : Agree ci ci' := by
  have hposting : ∀ f k, ci.posting f k = ci'.posting f k := by
    intro f k
    by_cases hf : f ∈ ti.eqIndexFields
    · ext n
      rw [h.posting f hf, h'.posting f hf]
    · -- A field without postings answers nothing on either side.
      have hnone : ∀ {c : ClassIndexes}, Represents ti rows noneLost c →
          c.posting f k = ∅ := by
        intro c hc
        ext n
        rw [mem_posting_iff]
        simp only [Finset.notMem_empty, iff_false, not_exists, not_and]
        intro p hp
        exact absurd ((hc.eqKeys f).mp (posting?_isSome_keys (by rw [hp]; rfl))) hf
      rw [hnone h, hnone h']
  refine ⟨?_, fun f => by rw [h.eqKeys, h'.eqKeys], hposting,
    fun f => by rw [h.uniqueKeys, h'.uniqueKeys], fun f k => ?_, fun f hf => ?_⟩
  · ext n
    rw [h.extent, h'.extent]
  -- A key of a unique field has one holder, the row that has it, and a field that is not unique has
  -- none.
  · by_cases hf : f ∈ ti.uniqueFields
    · ext n
      constructor
      · exact fun hn => h'.held f hf k n (h.holds f hf k n hn) id
      · exact fun hn => h.held f hf k n (h'.holds f hf k n hn) id
    · have hnone : ∀ {c : ClassIndexes}, Represents ti rows noneLost c →
          c.holder f k = none := by
        intro c hc
        have hno : c.unique.get? f = none :=
          (Dict.not_mem_keys_iff _ _).mp fun hk => hf ((hc.uniqueKeys f).mp hk)
        rw [holder, hno]
        rfl
      rw [hnone h, hnone h']
  -- The runs may differ in keys without postings, which the slices never see.
  · have hf' : f ∈ ci'.sortedFields := (h'.sortedFields f).mpr ((h.sortedFields f).mp hf)
    have hfam : ∀ {c : ClassIndexes}, Sound fam c → c.building = false → f ∈ c.sortedFields →
        (∀ a ∈ (c.run f).filter (fun k => (c.posting f (some k)).Nonempty), a.family = fam f) := by
      intro c hc hcb hcf a ha
      exact hc.keys f hcf a ((hc.run hcb f hcf a).mp (List.mem_filter.mp ha).1)
    refine ascending_ext (Key.orderedOn_family (fam f) (hs.ordered f hf)) (hfam hs hb hf)
      (hfam hs' hb' hf') ((hs.ascending hb f hf).filter _) ((hs'.ascending hb' f hf').filter _)
      fun k => ?_
    rw [mem_run_iff_of_nonempty hs hb hf, mem_run_iff_of_nonempty hs' hb' hf', hposting]

end ClassIndexes

end DataCrystal
