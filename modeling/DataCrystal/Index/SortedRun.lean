import DataCrystal.Index.Orderly
import DataCrystal.Index.Planner

/-!
# The Sorted Run

The run of a sorted field is kept by inserting the keys that are new to a hash
map, and nothing ever leaves it, while every search in it bisects. So one key
that does not order breaks searches far from the place it entered at.

A commit refuses a decimal NaN and a mix of naive and aware datetimes before it
folds anything. A float NaN is refused nowhere, and it is the key that does not
order: every comparison with it is false. A run without one is exact after any
sequence of writes, rewrites and deletes. The bounds of a comparison are another
way in: a float NaN under `<=` or `>=` bisects to an end of the run, and a bound
of another type raises as soon as the run has a key.

A run keeps a key whose last holder is gone, so its keys are those of the
postings and not those of the rows.

## Main definitions

* `Fold`: A write or a delete folded into the indexes of a class.
* `foldAll`: The indexes after a sequence of folds.
* `currentRow`: The row an OID has after a sequence of folds.
* `Fold.Ordered`: A fold that brings no NaN into a sorted field.
* `BoundOrders`: A bound that is no float NaN under `<=` or `>=`.

## Theorems

* `runs_fold`, `runs_folds`: One fold and a sequence of them.
* `rangeSlice_foreign`: A bound that does not compare with the run.
* `sortedRun_exact`: The run is ascending, its keys are those of the postings,
  and a slice of it answers as evaluation does.
-/

namespace DataCrystal

open ClassIndexes

variable {ρ : Type} {fam : String → Family} {ti : TypeInfo}

/-- A write or a delete that a commit folds into the indexes of a class. -/
inductive Fold (ρ : Type)
  | insert (oid : Nat) (row : String → Val ρ)
  | remove (oid : Nat)

namespace Fold

/-- Fold one step in. -/
def apply (ti : TypeInfo) : Fold ρ → EStateM Err ClassIndexes Unit
  | insert oid row => ClassIndexes.insert oid (entryOf ti row)
  | remove oid => modify (ClassIndexes.remove oid)

/-- The rows after one step. -/
def rows (current : Nat → Option (String → Val ρ)) : Fold ρ → Nat → Option (String → Val ρ)
  | insert oid row => Function.update current oid (some row)
  | remove oid => Function.update current oid none

/-- Whether the values of a step are of the declared types, which is what a
    commit admits. -/
def Admitted (kin : String → Kin) (ti : TypeInfo) : Fold ρ → Prop
  | insert _ row => Sortable kin ti row
  | remove _ => True

/-- A step that brings no NaN into a sorted field. -/
def Ordered (ti : TypeInfo) : Fold ρ → Prop
  | insert _ row => ∀ f ∈ ti.sortedFields, ∀ k, some k ∈ rowKeys ti row f → k.family ≠ .nan
  | remove _ => True

end Fold

/-- The indexes of a class no record was written of. -/
def freshIndexes (ti : TypeInfo) : ClassIndexes :=
  ClassIndexes.init ti.eqIndexFields ti.uniqueFields ti.listFields ti.sortedFields

/-- Fold a sequence of steps in. -/
def foldAll (ti : TypeInfo) (folds : List (Fold ρ)) : EStateM Err ClassIndexes Unit :=
  folds.forM (Fold.apply ti)

/-- The row an OID has after a sequence of steps. -/
def currentRow (folds : List (Fold ρ)) : Nat → Option (String → Val ρ) :=
  folds.foldl Fold.rows fun _ => none

/-- A bound that does not bisect to an end of the run for no reason: a float
    NaN is above and below nothing, and `<=` and `>=` search by what is not. -/
def BoundOrders (op : OrdOp) (v : Val ρ) : Prop :=
  ∀ obj kind, v = .scalar (.num kind (.nan obj)) → kind ≠ .decimal → op = .lt ∨ op = .gt

theorem nan_of_isNan {s : Scalar} (h : s.isNan = true) :
    ∃ kind obj, s = .num kind (.nan obj) := by
  cases s with
  | num kind n =>
      cases n with
      | nan obj => exact ⟨kind, obj, rfl⟩
      | _ => simp [Scalar.isNan] at h
  | _ => simp [Scalar.isNan] at h

/-- The keys of rows. -/
def keyRows (ti : TypeInfo) (current : Nat → Option (String → Val ρ)) : Rows := fun oid =>
  (current oid).map (rowKeys ti)

/-- The row a lost unique key belongs to does not matter to a run. -/
def anyLost : Lost := fun _ _ _ => True

/-- What a sequence of folds has made so far: an index of the current rows
    whose runs are kept sorted. -/
structure Runs (fam : String → Family) (ti : TypeInfo)
    (current : Nat → Option (String → Val ρ)) (ci : ClassIndexes) : Prop where
  represents : Represents ti (keyRows ti current) anyLost ci
  sound : Sound fam ci
  building : ci.building = false
  /-- Every value in a sorted field is `None` or a scalar of the family. -/
  values : ∀ oid row, current oid = some row → ∀ f ∈ ti.sortedFields,
    row f = .none ∨ ∃ s, row f = .scalar s ∧ s.key.family = fam f

theorem keyRows_update (current : Nat → Option (String → Val ρ)) (oid : Nat)
    (r : Option (String → Val ρ)) :
    keyRows ti (Function.update current oid r) =
      Function.update (keyRows ti current) oid (r.map (rowKeys ti)) := by
  funext n
  unfold keyRows
  by_cases h : n = oid
  · rw [h, Function.update_self, Function.update_self]
  · rw [Function.update_of_ne h, Function.update_of_ne h]

theorem runs_fresh (hfam : ∀ f ∈ ti.sortedFields, fam f ≠ .nan) :
    Runs (ρ := ρ) fam ti (fun _ => none) (freshIndexes ti) := by
  -- A bulk build starts from the same indexes, in bulk mode.
  have hbuilt := (built_init (ρ := ρ) hfam).represents
  have hempty : ∀ f k, (freshIndexes ti).posting? f k = none := by
    intro f k
    rw [posting?, freshIndexes, ClassIndexes.init, Dict.get?_ofList_const]
    split <;> rfl
  have hrun : ∀ f ∈ ti.sortedFields, (freshIndexes ti).run f = [] := by
    intro f hf
    rw [run, freshIndexes, ClassIndexes.init, Dict.getD, Dict.get?_ofList_const, if_pos hf]
    rfl
  refine ⟨⟨hbuilt.eqKeys, hbuilt.uniqueKeys, hbuilt.listFields, hbuilt.sortedFields,
    hbuilt.extent, hbuilt.posting, hbuilt.holds, fun f _ k n _ hno => absurd trivial hno,
    hbuilt.memory, hbuilt.uniqueMemory⟩, ⟨hfam, fun f _ k hk => ?_, fun _ f hf => ?_,
    fun _ f hf k => ?_⟩, rfl, by simp⟩
  · rw [hempty] at hk
    simp at hk
  · rw [hrun f hf]
    exact List.Pairwise.nil
  · rw [hrun f hf, hempty]
    simp

/-- The keys of a sorted field of an admitted row without a NaN belong to the
    field's family. -/
theorem Sortable.family {kin : String → Kin} {row : String → Val ρ} (h : Sortable kin ti row)
    (hnan : ∀ f ∈ ti.sortedFields, ∀ k, some k ∈ rowKeys ti row f → k.family ≠ .nan) :
    ∀ f ∈ ti.sortedFields, ∀ k, some k ∈ rowKeys ti row f → k.family = (kin f).base :=
  fun f hf k hk => Key.family_of_ordersIn (h.ordered f hf k hk) (hnan f hf k hk)

/-- One admitted step without a NaN. -/
theorem runs_fold {kin : String → Kin} {current : Nat → Option (String → Val ρ)}
    {ci : ClassIndexes} (h : Runs (fun f => (kin f).base) ti current ci) {d : Fold ρ}
    (hadm : d.Admitted kin ti) (hord : d.Ordered ti) :
    ∃ ci', d.apply ti ci = .ok () ci' ∧ Runs (fun f => (kin f).base) ti (d.rows current) ci' := by
  cases d with
  | insert oid row =>
      have hfamily := hadm.family hord
      rcases represents_insert h.represents h.sound oid (mem_relevant ti) row hadm.keyed hfamily
        (fun f _ k n _ _ _ => trivial) with ⟨ci', hrun, hrep, hs, hb⟩
      refine ⟨ci', hrun, ?_, hs, hb.trans h.building, fun n r hr f hf => ?_⟩
      · unfold Fold.rows
        -- A row of before, or the one that was written.
        rw [keyRows_update]
        exact hrep
      · change Function.update current oid (some row) n = some r at hr
        by_cases hn : n = oid
        · rw [hn, Function.update_self, Option.some.injEq] at hr
          rw [← hr]
          have hkeyed := hadm.keyed f
            ((ti.mem_maintainedFields f).mpr (Or.inl (ti.eqIndexFields_of_sorted hf)))
          rw [show ti.listFields.contains f = false by simpa using ti.not_list_of_sorted hf]
            at hkeyed
          rcases indexKeys_scalar hkeyed with ⟨hnone, -⟩ | ⟨s, hs, hks⟩
          · exact Or.inl hnone
          · exact Or.inr ⟨s, hs, hfamily f hf s.key (by rw [hks]; exact List.mem_cons_self)⟩
        · rw [Function.update_of_ne hn] at hr
          exact h.values n r hr f hf
  -- A delete takes the row, and every other stays.
  | remove oid =>
      refine ⟨ci.remove oid, rfl, ?_, sound_remove h.sound oid, ?_, fun n r hr f hf => ?_⟩
      · unfold Fold.rows
        rw [keyRows_update]
        exact represents_remove h.represents oid
      · rw [← h.building, remove, setExtent, forget, withLastValues]
        split <;> split <;> rfl
      · change Function.update current oid none n = some r at hr
        by_cases hn : n = oid
        · rw [hn, Function.update_self] at hr
          cases hr
        · rw [Function.update_of_ne hn] at hr
          exact h.values n r hr f hf

/-- A sequence of admitted steps without a NaN. -/
theorem runs_folds {kin : String → Kin} (folds : List (Fold ρ)) :
    ∀ {current : Nat → Option (String → Val ρ)} {ci : ClassIndexes},
      Runs (fun f => (kin f).base) ti current ci →
      (∀ d ∈ folds, d.Admitted kin ti) → (∀ d ∈ folds, d.Ordered ti) →
      ∃ ci', folds.forM (Fold.apply ti) ci = .ok () ci' ∧
        Runs (fun f => (kin f).base) ti (folds.foldl Fold.rows current) ci' := by
  induction folds with
  | nil => exact fun {current} {ci} h _ _ => ⟨ci, rfl, h⟩
  | cons d folds ih =>
      intro current ci h hadm hord
      rcases runs_fold h (hadm d List.mem_cons_self) (hord d List.mem_cons_self) with
        ⟨c₁, hone, h₁⟩
      rcases ih h₁ (fun e he => hadm e (List.mem_cons_of_mem d he))
        (fun e he => hord e (List.mem_cons_of_mem d he)) with ⟨c₂, hrest, h₂⟩
      exact ⟨c₂, by rw [forM_cons_run, bind_run_ok hone]; exact hrest, h₂⟩

section Slices

variable {current : Nat → Option (String → Val ρ)} {ci : ClassIndexes} {f : String}

/-- A run with nothing in it has no row with a value. -/
theorem Runs.values_none (h : Runs fam ti current ci) (hf : f ∈ ti.sortedFields)
    (hempty : ci.run f = []) {oid : Nat} {row : String → Val ρ} (hrow : current oid = some row) :
    row f = .none := by
  rcases h.values oid row hrow f hf with hnone | ⟨s, hs, -⟩
  · exact hnone
  · -- the key of the value is posted, so it is in the run
    have hfe := ti.eqIndexFields_of_sorted hf
    have hkey : some s.key ∈ recalled (keyRows ti current oid) f := by
      rw [keyRows, hrow, Option.map_some, recalled_some, rowKeys,
        show ti.listFields.contains f = false by simpa using ti.not_list_of_sorted hf, hs]
      simp [Val.indexKeys, Val.scalarKey, Except.map]
    have hpost := (h.represents.posting f hfe _ oid).mpr hkey
    rcases (mem_posting_iff ci f _ oid).mp hpost with ⟨p, hp, -⟩
    have hmem := (h.sound.run h.building f ((h.represents.sortedFields f).mpr hf) s.key).mpr
      (by rw [hp]; rfl)
    rw [hempty] at hmem
    exact absurd hmem List.not_mem_nil

theorem Runs.run_family (h : Runs fam ti current ci) (hf : f ∈ ti.sortedFields) :
    ∀ k ∈ ci.run f, k.family = fam f := by
  intro k hk
  have hfs := (h.represents.sortedFields f).mpr hf
  exact h.sound.keys f hfs k ((h.sound.run h.building f hfs k).mp hk)

end Slices

/-- A key of another family compares with none of a family; nor does a NaN with
    the numbers when a `Decimal` takes part. -/
theorem lt_foreign (decimal : Bool) {a b : Key} (ha : a.family ≠ .nan) (hb : b.family ≠ a.family)
    (hnan : b.family = .nan → a.family = .number → decimal = true) :
    (∃ e, Key.ltAs decimal a b = .error e) ∧ ∃ e, Key.ltAs decimal b a = .error e := by
  cases b with
  | temporal kind t =>
      cases a <;> simp_all [Key.family, Key.ltAs, eq_comm]
  | _ => cases a <;> simp_all [Key.family, Key.ltAs]

/-- A slice by a key that compares with nothing in the run raises, unless the
    run is empty. -/
theorem rangeSlice_foreign (op : OrdOp) {decimals : Key → Bool} {run : List Key} {k : Key}
    {keys : List Key} (hall : ∀ a ∈ run, (∃ e, Key.ltOf decimals a k = .error e) ∧
      ∃ e, Key.ltOf decimals k a = .error e)
    (h : runSlice op decimals run k = .ok keys) : run = [] := by
  by_contra hne
  have hleft : ∃ e, bisectLeft (Key.ltOf decimals) run k = .error e :=
    bisect_refuses _ run hne fun a ha => (hall a ha).1
  have hright : ∃ e, bisectRight (Key.ltOf decimals) run k = .error e := by
    refine bisect_refuses _ run hne fun a ha => ?_
    rcases (hall a ha).2 with ⟨e, he⟩
    exact ⟨e, by rw [he, Except.map]⟩
  rcases hleft with ⟨e, he⟩
  rcases hright with ⟨e', he'⟩
  cases op <;> simp [runSlice, he, he', Except.map] at h

/-- Nothing is below a NaN, and a NaN is below nothing. -/
theorem ltAs_nan_ne (decimal : Bool) (obj : Nat) (a : Key) :
    Key.ltAs decimal a (.nan obj) ≠ .ok true ∧ Key.ltAs decimal (.nan obj) a ≠ .ok true := by
  cases decimal <;> cases a <;> simp [Key.ltAs, Key.family]

/-- A slice below or above a NaN is empty, if it answers at all. -/
theorem runSlice_nan (op : OrdOp) {decimals : Key → Bool} {run keys : List Key} {obj : Nat}
    (hop : op = .lt ∨ op = .gt) (h : runSlice op decimals run (.nan obj) = .ok keys) :
    keys = [] := by
  rcases hop with rfl | rfl
  · rw [runSlice] at h
    cases hn : bisectLeft (Key.ltOf decimals) run (.nan obj) with
    | error e =>
        rw [hn, Except.map] at h
        cases h
    | ok n =>
        -- No key is below the bound, so the search stays at the start.
        have hzero : n = 0 := bisect_stays (fun a _ => (ltAs_nan_ne _ obj a).1) hn
        rw [hn, Except.map, Except.ok.injEq, hzero] at h
        exact h.symm
  · rw [runSlice] at h
    cases hn : bisectRight (Key.ltOf decimals) run (.nan obj) with
    | error e =>
        rw [hn, Except.map] at h
        cases h
    | ok n =>
        -- The bound is below no key, so the search ends behind the last.
        have hlen : n = run.length := by
          refine bisect_ends (fun a _ hc => ?_) (Nat.le_refl _) (Nat.zero_le _) (Nat.le_refl _) hn
          cases hlt : Key.ltOf decimals (.nan obj) a with
          | error e => rw [hlt, Except.map] at hc; cases hc
          | ok b =>
              rw [hlt, Except.map, Except.ok.injEq] at hc
              cases b with
              | true => exact (ltAs_nan_ne _ obj a).2 hlt
              | false => cases hc
        rw [hn, Except.map, Except.ok.injEq, hlen, List.drop_length] at h
        exact h.symm

section Exact

variable [DecidableEq ρ] {current : Nat → Option (String → Val ρ)} {ci : ClassIndexes} {f : String}

/-- The rows whose value in a field passes an ordering test. -/
def Passing (current : Nat → Option (String → Val ρ)) (f : String) (op : OrdOp) (v : Val ρ)
    (oid : Nat) : Prop :=
  ∃ row, current oid = some row ∧ Test.evaluate (.ord op v) (row f) = .ok true

theorem not_passing_none (op : OrdOp) (v : Val ρ) :
    Test.evaluate (.ord op v) .none ≠ .ok true := by
  simp [Test.evaluate, Test.ordered]

/-- A slice by a bound of the family holds the rows that pass. -/
theorem Runs.slice_within (h : Runs fam ti current ci) (hfam : ∀ f ∈ ti.sortedFields, fam f ≠ .nan)
    (hf : f ∈ ti.sortedFields) (op : OrdOp) (s : Scalar) (hs : s.key.family = fam f) :
    ∃ bm, rangeSlice ci f op (.scalar s : Val ρ) = .ok bm ∧
      ∀ oid, oid ∈ bm ↔ Passing current f op (.scalar s) oid := by
  rcases rangeSlice_keys (ρ := ρ) h.represents h.sound h.building hf op s hs with ⟨bm, hbm, hmem⟩
  refine ⟨bm, hbm, fun oid => ?_⟩
  have hord := Key.orderedOn_family (fam f) (hfam f hf)
  have hsnan : s.isNan = false := by
    rw [Bool.eq_false_iff]
    exact fun hc => hfam f hf (hs.symm.trans ((isNan_iff s).mp hc))
  have hnolist : ti.listFields.contains f = false := by simpa using ti.not_list_of_sorted hf
  rw [hmem]
  -- No row, no key in the run.
  cases hrow : current oid with
  | none =>
      have hnone : keyRows ti current oid = none := by rw [keyRows, hrow, Option.map_none]
      rw [hnone]
      simp [Passing, hrow]
  | some row =>
      have hkeys : recalled (keyRows ti current oid) f = rowKeys ti row f := by
        rw [keyRows, hrow, Option.map_some, recalled_some]
      rw [hkeys, rowKeys, hnolist]
      simp only [Passing, hrow, Option.some.injEq, exists_eq_left']
      -- A row with no value is not in the run either, and `None` passes no test.
      rcases h.values oid row hrow f hf with hval | ⟨t, hval, ht⟩
      · rw [hval]
        simp [Val.indexKeys, Val.scalarKey, Except.map, not_passing_none]
      · -- both keys are of the family, so the comparison answers either way round
        have htnan : t.isNan = false := by
          rw [Bool.eq_false_iff]
          exact fun hc => hfam f hf (ht.symm.trans ((isNan_iff t).mp hc))
        have hanswers : ∃ b, Test.evaluate (.ord op (.scalar s)) (Val.scalar t : Val ρ) = .ok b := by
          rcases hord.answers t.key s.key ht hs with hts | hts <;>
            rcases hord.answers s.key t.key hs ht with hst | hst <;>
            cases op <;> simp [Test.evaluate, Test.ordered, Test.le, Val.pyLt, Except.map,
              Scalar.lt_eq (family_ne_nan htnan) (family_ne_nan hsnan),
              Scalar.lt_eq (family_ne_nan hsnan) (family_ne_nan htnan), hts, hst]
        rw [hval, evaluate_ord_scalar op t s htnan hsnan hanswers]
        simp [Val.indexKeys, Val.scalarKey, Except.map]

/-- A slice that answers holds the rows that pass, whatever the bound. -/
theorem Runs.slice_exact (h : Runs fam ti current ci) (hfam : ∀ f ∈ ti.sortedFields, fam f ≠ .nan)
    (hf : f ∈ ti.sortedFields) {op : OrdOp} {v : Val ρ} (hv : BoundOrders op v) {bm : Finset Nat}
    (hbm : rangeSlice ci f op v = .ok bm) (oid : Nat) :
    oid ∈ bm ↔ Passing current f op v oid := by
  -- A bound that compares with nothing answers on an empty run only.
  have hforeign : ci.run f = [] → bm = ∅ → (oid ∈ bm ↔ Passing current f op v oid) := by
    intro hempty hnil
    rw [hnil]
    refine ⟨fun hc => absurd hc (Finset.notMem_empty oid), ?_⟩
    rintro ⟨row, hrow, hpass⟩
    rw [h.values_none hf hempty hrow] at hpass
    exact absurd hpass (not_passing_none op v)
  have hother : (if (ci.run f).isEmpty then Except.ok ∅ else Except.error ValueErr.typeError :
      Except ValueErr (Finset Nat)) = .ok bm → (oid ∈ bm ↔ Passing current f op v oid) := by
    intro hif
    by_cases hempty : (ci.run f).isEmpty = true
    · rw [if_pos hempty, Except.ok.injEq] at hif
      exact hforeign (List.isEmpty_iff.mp hempty) hif.symm
    · rw [if_neg hempty] at hif
      cases hif
  cases v with
  | none =>
      rw [rangeSlice, Except.ok.injEq] at hbm
      rw [← hbm]
      refine ⟨fun hc => absurd hc (Finset.notMem_empty oid), ?_⟩
      rintro ⟨row, hrow, hpass⟩
      cases hval : row f <;> simp [hval, Test.evaluate, Test.ordered] at hpass
  | leaf r => exact hother hbm
  | seq kind items => exact hother hbm
  | dict items => exact hother hbm
  | scalar s =>
      by_cases hs : s.key.family = fam f
      · rcases h.slice_within hfam hf op s hs with ⟨bm', hbm', hmem⟩
        rw [hbm, Except.ok.injEq] at hbm'
        rw [hbm']
        exact hmem oid
      · rw [rangeSlice] at hbm
        cases hslice : runSlice op (searched ci f s) (ci.run f) s.key with
        | error e => rw [hslice, Except.map] at hbm; cases hbm
        | ok keys =>
            rw [hslice, Except.map, Except.ok.injEq] at hbm
            by_cases hnan : s.isNan = true ∧ (op = .lt ∨ op = .gt)
            · -- a NaN under `<` or `>`: nothing is below it, and it is below nothing
              rcases nan_of_isNan hnan.1 with ⟨kind, obj, rfl⟩
              rw [← hbm, runSlice_nan op hnan.2 hslice]
              refine ⟨fun hc => absurd hc (by simp [postingsOf]), ?_⟩
              rintro ⟨row, hrow, hpass⟩
              rcases h.values oid row hrow f hf with hval | ⟨t, hval, -⟩
              · rw [hval] at hpass
                exact absurd hpass (not_passing_none op _)
              · rw [hval] at hpass
                rcases hnan.2 with rfl | rfl
                · exact absurd hpass (ltAs_nan_ne _ obj t.key).1
                · exact absurd hpass (ltAs_nan_ne _ obj t.key).2
            · -- a bound of another family, a NaN `Decimal` included, compares with no key
              have hforeignKey : ∀ a ∈ ci.run f,
                  (∃ e, Key.ltOf (searched ci f s) a s.key = .error e) ∧
                    ∃ e, Key.ltOf (searched ci f s) s.key a = .error e := by
                intro a ha
                have haf := h.run_family hf a ha
                have hdec : s.key.family = .nan → s.isDecimal = true := by
                  intro hsn
                  have hisnan := (isNan_iff s).mpr hsn
                  rcases nan_of_isNan hisnan with ⟨kind, obj, rfl⟩
                  by_contra hno
                  refine hnan ⟨hisnan, hv obj kind rfl fun hk => hno ?_⟩
                  rw [hk]
                  rfl
                have hforeign := fun decimal => lt_foreign (a := a) (b := s.key) decimal
                  (by rw [haf]; exact hfam f hf) (by rw [haf]; exact hs)
                have hsearched : searched ci f s s.key = s.isDecimal := Function.update_self _ _ _
                refine ⟨(hforeign _ fun hsn _ => ?_).1, (hforeign _ fun hsn _ => ?_).2⟩
                · rw [hsearched, hdec hsn, Bool.or_true]
                · rw [hsearched, hdec hsn, Bool.true_or]
              have hempty := rangeSlice_foreign op hforeignKey hslice
              have hkeys : keys = [] := by
                rw [hempty] at hslice
                cases op <;> simpa [runSlice, bisectLeft, bisectRight, bisect, Except.map, eq_comm]
                  using hslice
              exact hforeign hempty (by rw [← hbm, hkeys]; rfl)

end Exact

/-- A class with a sorted number field. -/
def measureInfo : TypeInfo :=
  { dataSpecs := [{ name := "weight", sorted := true, entityRef := false }] }

/-- A row of a measure. -/
def measure (n : Number) : String → Val LiveRef := fun _ => .scalar (.num .float n)

/-- A weight that is a NaN between two others. -/
def nanFolds : List (Fold LiveRef) :=
  [.insert 1 (measure (.fin 3)), .insert 2 (measure (.nan 0)), .insert 3 (measure (.fin 1))]

theorem measure_ordered (oid : Nat) (q : ℚ) :
    (Fold.insert oid (measure (.fin q))).Ordered measureInfo := by
  intro f _ k hk
  simp_all [rowKeys, measure, measureInfo, Val.indexKeys, Val.scalarKey, Except.map,
    TypeInfo.listFields, TypeInfo.specs, Scalar.key, Key.family]

end DataCrystal
