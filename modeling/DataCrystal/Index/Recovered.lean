import DataCrystal.Index.Deferred

/-!
# The Recovered Memory

An index reached by writes and deletes that all returned, left by a session and
loaded by the next one.

That every step returned says a lot about the keys. Each of them was comparable
with the run it entered, so a sorted field has kept to one family and its run is
the sorted list of its keys, which is what a load makes of them. And each record
is remembered under exactly the keys it is posted under, which is what a load
reads off the postings.

## Main definitions

* `Uniform`: What the steps have kept of the fields, the runs and the keys.
* `Kept`: The same, with what they have kept of the memory.

## Theorems

* `uniform_addKey`: Entering a key.
* `kept_folds`: Steps that returned.
* `load_dump`: A loaded index is the original but for its memory.
* `sameMemory_rebuilt`: The memory of the postings un-indexes as the original does.
-/

namespace DataCrystal

namespace ClassIndexes

variable {ρ : Type} {fam : String → Family} {ti : TypeInfo} {ci ci' : ClassIndexes} {oid : Nat}
  {f : String} {k : Option Key}

/-- The fields are those of the class, and every sorted field has kept to one
    family other than NaN and has its keys in its run. -/
structure Uniform (ti : TypeInfo) (ci : ClassIndexes) : Prop where
  current : ci.needsLvRebuild = false
  building : ci.building = false
  eqKeys : ci.eq.keys = ti.eqIndexFields
  uniqueKeys : ci.unique.keys = ti.uniqueFields
  listFields : ci.listFields = ti.listFields
  sortedFields : ci.sortedFields = ti.sortedFields
  runKeys : ci.sortedKeys.keys = ti.sortedFields
  noNan : ∀ f ∈ ti.sortedFields, ∀ k, (ci.posting? f (some k)).isSome → k.family ≠ .nan
  family : ∀ f ∈ ti.sortedFields, ∀ j k, (ci.posting? f (some j)).isSome →
    (ci.posting? f (some k)).isSome → j.family = k.family
  run : ∀ f ∈ ti.sortedFields, ∀ k, k ∈ ci.run f ↔ (ci.posting? f (some k)).isSome

/-- The same, and a scalar field is remembered under at most one key. The postings
    determine the memory then, which is what a load has to rebuild it from. -/
structure Kept (ti : TypeInfo) (ci : ClassIndexes) : Prop extends Uniform ti ci where
  scalar : ∀ oid f, f ∉ ti.listFields → (recalled (ci.lastValues oid) f).length ≤ 1
  absent : ∀ oid f, f ∉ ti.maintainedFields → recalled (ci.lastValues oid) f = []

/-- Entering keys remembers nothing yet and drops no entry: the memory of an OID is
    set once all its values are in. -/
structure Grown (ci ci' : ClassIndexes) : Prop where
  lastValues : ci'.lastValues = ci.lastValues
  entries : ∀ f k, (ci.posting? f k).isSome → (ci'.posting? f k).isSome

theorem Grown.trans {ci'' : ClassIndexes} (h : Grown ci ci') (h' : Grown ci' ci'') :
    Grown ci ci'' :=
  ⟨h'.lastValues.trans h.lastValues, fun f k hk => h'.entries f k (h.entries f k hk)⟩

section Entering

/-- A key that entered the run, or was there, is of its family. -/
theorem enterNewKey_ok {decimalAt : Key → Bool} (h : Uniform ti ci)
    (hk : f ∈ ti.sortedFields → ∀ key, k = some key → key.family ≠ .nan) {u : Unit}
    (hrun : enterNewKey f decimalAt k ci = .ok u ci') :
    ∃ decs runs, ci' = { ci with decimals := decs, sortedKeys := runs } ∧ runs.keys = ci.sortedKeys.keys ∧
      (∀ g ∈ ti.sortedFields, ∀ j, j ∈ runs.getD g [] ↔ (k = some j ∧ g = f) ∨ j ∈ ci.run g) ∧
      (f ∈ ti.sortedFields → ∀ key, k = some key → ∀ j, (ci.posting? f (some j)).isSome →
        j.family = key.family) := by
  unfold enterNewKey at hrun
  rw [bind_run_ok (get_run ci)] at hrun
  cases k with
  | none =>
      cases hrun
      exact ⟨ci.decimals, ci.sortedKeys, rfl, rfl, fun g _ j => by simp [ClassIndexes.run],
        fun _ key hkey => nomatch hkey⟩
  | some key =>
      cases hpost : ci.posting? f (some key) with
      | some p =>
          rw [hpost] at hrun
          cases hrun
          have hentry : (ci.posting? f (some key)).isSome := by
            rw [hpost]
            rfl
          refine ⟨ci.decimals, ci.sortedKeys, rfl, rfl, fun g hg j => ?_,
            fun hf key' hkey j hj => ?_⟩
          · -- the key is in the run already
            refine ⟨Or.inr, ?_⟩
            rintro (⟨hj, rfl⟩ | hj)
            · rw [← Option.some.inj hj]
              exact (h.run g hg key).mpr hentry
            · exact hj
          · rw [← Option.some.inj hkey]
            exact h.family f hf j key hj hentry
      | none =>
          rw [hpost] at hrun
          dsimp only at hrun
          rw [bind_run_ok (modify_run _ ci)] at hrun
          unfold enterSortedRun at hrun
          rw [bind_run_ok (get_run _)] at hrun
          -- What object the key is has been noted, and nothing else.
          have hrest : ∀ g, (ci.noteObject f key (decimalAt key)).run g = ci.run g := fun _ => rfl
          by_cases hf : f ∈ ti.sortedFields
          · have hin : ((ci.noteObject f key (decimalAt key)).sortedFields.contains f &&
                !(ci.noteObject f key (decimalAt key)).building) = true := by
              rw [noteObject, h.sortedFields, h.building]
              simpa using hf
            rw [if_pos hin] at hrun
            rcases bind_ok_iff.mp hrun with ⟨_, c₁, hguard, hafter⟩
            rw [(raiseIf_ok_iff.mp hguard).2] at hafter
            rcases bind_ok_iff.mp hafter with ⟨run, c₂, hins, hset⟩
            cases hset
            rcases insort_ok (except_mapError_ok_iff.mp (ofExcept_ok_iff.mp hins).1) with ⟨hcompared, hmem⟩
            have hfk : f ∈ ci.sortedKeys.keys := h.runKeys ▸ hf
            refine ⟨(ci.noteObject f key (decimalAt key)).decimals, ci.sortedKeys.set f run, rfl,
              Dict.keys_set_of_mem hfk run, fun g hg j => ?_,
              fun _ key' hkey j hj => ?_⟩
            · rw [Dict.getD, Dict.get?_set]
              by_cases hgf : g = f
              · rw [if_pos hgf, Option.getD_some, hmem, hgf, hrest]
                simp [eq_comm]
              · rw [if_neg hgf]
                simp only [hgf, and_false, false_or]
                rfl
            · rw [← Option.some.inj hkey]
              have hjr := (h.run f hf j).mpr hj
              rcases hcompared with hempty | ⟨a, ha, b, hb⟩
              · rw [← hrest, hempty] at hjr
                exact absurd hjr List.not_mem_nil
              · have hae := (h.run f hf a).mp ha
                have hsame : key.family = a.family := by
                  by_contra hne
                  rcases (lt_foreign _ (h.noNan f hf a hae) hne fun hnan =>
                    absurd hnan (hk hf key rfl)).2 with ⟨e, he⟩
                  rw [Key.ltOf, he] at hb
                  cases hb
                rw [hsame]
                exact h.family f hf j a hj hae
          · have hin : ¬((ci.noteObject f key (decimalAt key)).sortedFields.contains f &&
                !(ci.noteObject f key (decimalAt key)).building) = true := by
              rw [noteObject, h.sortedFields]
              simp [hf]
            rw [if_neg hin] at hrun
            cases hrun
            refine ⟨(ci.noteObject f key (decimalAt key)).decimals, ci.sortedKeys, rfl, rfl,
              fun g hg j => ?_, fun hc => absurd hc hf⟩
            have hgf : g ≠ f := fun hc => hf (hc ▸ hg)
            simp [hgf, ClassIndexes.run]

/-- Entering a key that returned. -/
theorem uniform_addKey {decimalAt : Key → Bool} (h : Uniform ti ci)
    (hk : f ∈ ti.sortedFields → ∀ key, k = some key → key.family ≠ .nan) {u : Unit}
    (hrun : addKey oid f decimalAt k ci = .ok u ci') :
    Uniform ti ci' ∧ Grown ci ci' ∧ (f ∈ ti.eqIndexFields → (ci'.posting? f k).isSome) := by
  -- Holding the key touches the unique maps only.
  have hhold : ∀ c, Uniform ti c → Uniform ti (c.holdKey oid f k) := by
    intro c hc
    cases k with
    | none => exact hc
    | some key => exact { hc with uniqueKeys := (Dict.keys_mapVal _ _).trans hc.uniqueKeys }
  have hposting : ∀ (c : ClassIndexes) g j, (c.holdKey oid f k).posting? g j = c.posting? g j := by
    intro c g j
    cases k <;> rfl
  have hmemory : ∀ c : ClassIndexes, (c.holdKey oid f k).lastValues = c.lastValues := by
    intro c
    cases k <;> rfl
  unfold addKey at hrun
  rw [bind_run_ok (get_run ci)] at hrun
  by_cases hf : ci.eq.contains f = true
  · rw [if_pos hf] at hrun
    rcases bind_ok_iff.mp hrun with ⟨_, c₁, hnew, hrest⟩
    cases hrest
    rcases enterNewKey_ok h hk hnew with ⟨decs, runs, rfl, hruns, hmem, hfamily⟩
    have hentry : ∀ g j, (posting? (addPosting oid f k
        { ci with decimals := decs, sortedKeys := runs }) g j).isSome ↔
        (g = f ∧ j = k) ∨ (ci.posting? g j).isSome := by
      intro g j
      rw [posting?_addPosting, posting?_sortedKeys]
      by_cases hgj : g = f ∧ j = k
      · simp [hgj, hf]
      · have hno : ¬(g = f ∧ j = k ∧ ci.eq.contains f = true) := fun hc => hgj ⟨hc.1, hc.2.1⟩
        rw [if_neg hno]
        simp only [hgj, false_or]
    refine ⟨hhold _ ?_, ⟨hmemory _, fun g j hj => ?_⟩, fun _ => ?_⟩
    · refine ⟨h.current, h.building, (Dict.keys_mapVal _ _).trans h.eqKeys, h.uniqueKeys,
        h.listFields, h.sortedFields, hruns.trans h.runKeys, fun g hg j hj => ?_,
        fun g hg i j hi hj => ?_, fun g hg j => ?_⟩
      · rcases (hentry g (some j)).mp hj with ⟨rfl, hjk⟩ | hj
        · exact hk hg j hjk.symm
        · exact h.noNan g hg j hj
      · rcases (hentry g (some i)).mp hi with ⟨hgf, hik⟩ | hi'
        · rcases (hentry g (some j)).mp hj with ⟨-, hjk⟩ | hj'
          · rw [Option.some.inj (hik.trans hjk.symm)]
          · exact (hfamily (hgf ▸ hg) i hik.symm j (hgf ▸ hj')).symm
        · rcases (hentry g (some j)).mp hj with ⟨hgf, hjk⟩ | hj'
          · exact hfamily (hgf ▸ hg) j hjk.symm i (hgf ▸ hi')
          · exact h.family g hg i j hi' hj'
      · rw [hentry, eq_comm (a := some j), and_comm, ← h.run g hg j]
        exact hmem g hg j
    · rw [hposting]
      exact (hentry g j).mpr (Or.inr hj)
    · rw [hposting]
      exact (hentry f k).mpr (Or.inl ⟨rfl, rfl⟩)
  · rw [if_neg hf] at hrun
    cases hrun
    refine ⟨hhold ci h, ⟨hmemory ci, fun g j hj => ?_⟩, fun hfe => ?_⟩
    · rw [hposting]
      exact hj
    · rw [Dict.contains_iff, h.eqKeys] at hf
      exact absurd hfe hf

/-- Entering the keys of one value. -/
theorem uniform_addKeys {decimalAt : Key → Bool} (keys : List (Option Key)) : ∀ {ci : ClassIndexes} {u : Unit},
    Uniform ti ci → (f ∈ ti.sortedFields → ∀ key, some key ∈ keys → key.family ≠ .nan) →
    keys.forM (addKey oid f decimalAt) ci = .ok u ci' →
    Uniform ti ci' ∧ Grown ci ci' ∧ (f ∈ ti.eqIndexFields → ∀ k ∈ keys, (ci'.posting? f k).isSome) := by
  induction keys with
  | nil =>
      intro ci u h _ hrun
      cases hrun
      exact ⟨h, ⟨rfl, fun g j hj => hj⟩, fun _ k hk => absurd hk List.not_mem_nil⟩
  | cons k keys ih =>
      intro ci u h hk hrun
      rw [forM_cons_run] at hrun
      rcases bind_ok_iff.mp hrun with ⟨_, c₁, hone, hrest⟩
      rcases uniform_addKey h (fun hf key hkey => hk hf key (hkey ▸ List.mem_cons_self)) hone with
        ⟨h₁, hgrown, hentry⟩
      rcases ih h₁ (fun hf key hkey => hk hf key (List.mem_cons_of_mem k hkey)) hrest with
        ⟨h₂, hgrown', hentries⟩
      refine ⟨h₂, hgrown.trans hgrown', fun hf j hj => ?_⟩
      rcases List.mem_cons.mp hj with rfl | hj
      · exact hgrown'.entries f j (hentry hf)
      · exact hentries hf j hj

/-- Entering the values of a record. -/
theorem uniform_indexEntries (row : String → Val ρ) (fields : List String)
    (hnan : ∀ f ∈ ti.sortedFields, ∀ key, some key ∈ rowKeys ti row f → key.family ≠ .nan) :
    ∀ {ci : ClassIndexes} {indexed : List (String × List (Option Key))}, Uniform ti ci →
    (fields.map fun f => (f, row f)).mapM (indexEntry oid) ci = .ok indexed ci' →
    Uniform ti ci' ∧ Grown ci ci' ∧ indexed = fields.map (fun f => (f, rowKeys ti row f)) ∧
      (∀ f ∈ fields, (row f).indexKeys (ti.listFields.contains f) = .ok (rowKeys ti row f)) ∧
      ∀ f ∈ fields, f ∈ ti.eqIndexFields → ∀ k ∈ rowKeys ti row f, (ci'.posting? f k).isSome := by
  -- Field by field: each is keyed, posted and recorded, and postings only grow.
  induction fields with
  | nil =>
      intro ci indexed h hrun
      cases hrun
      exact ⟨h, ⟨rfl, fun g j hj => hj⟩, rfl, fun f hf => absurd hf List.not_mem_nil,
        fun f hf => absurd hf List.not_mem_nil⟩
  | cons f fields ih =>
      intro ci indexed h hrun
      rw [List.map_cons, List.mapM_cons] at hrun
      rcases bind_ok_iff.mp hrun with ⟨one, c₁, hone, hrest⟩
      rcases bind_ok_iff.mp hrest with ⟨others, c₂, hothers, hpure⟩
      cases hpure
      unfold indexEntry at hone
      rcases bind_ok_iff.mp hone with ⟨keys, c₂, hfield, hpure⟩
      cases hpure
      unfold indexField at hfield
      rw [bind_run_ok (get_run ci)] at hfield
      rcases bind_ok_iff.mp hfield with ⟨keys', c₃, hkeys, hloop⟩
      rcases ofExcept_ok_iff.mp hkeys with ⟨hkeys, rfl⟩
      rcases bind_ok_iff.mp hloop with ⟨_, c₄, hforM, hpure⟩
      cases hpure
      have hindex := except_mapError_ok_iff.mp hkeys
      rw [h.listFields] at hindex
      have hrow : rowKeys ti row f = keys := by
        unfold rowKeys
        rw [hindex]
      rcases uniform_addKeys keys h (fun hf key hkey => hnan f hf key (hrow ▸ hkey)) hforM with
        ⟨h₁, hgrown, hentry⟩
      rcases ih h₁ hothers with ⟨h₂, hgrown', rfl, hkeyed, hentries⟩
      refine ⟨h₂, hgrown.trans hgrown', by rw [List.map_cons, hrow], fun g hg => ?_,
        fun g hg hge j hj => ?_⟩
      · rcases List.mem_cons.mp hg with rfl | hg
        · rw [hrow]
          exact hindex
        · exact hkeyed g hg
      · rcases List.mem_cons.mp hg with rfl | hg
        · exact hgrown'.entries g j (hentry hge j (hrow ▸ hj))
        · exact hentries g hg hge j hj

end Entering

section Folding

theorem uniform_forget (h : Uniform ti ci) (oid : Nat) :
    Uniform ti (ci.withLastValues.forget oid) ∧
      (∀ f k, ((ci.withLastValues.forget oid).posting? f k).isSome ↔ (ci.posting? f k).isSome) ∧
      (ci.withLastValues.forget oid).lastValues = Function.update ci.lastValues oid none := by
  have hshape := forget_withMemory ci.lastValues oid ci
  rw [withLastValues_eq h.current]
  have hmemory := withLastValues_eq_withMemory ci
  rw [withLastValues_eq h.current] at hmemory
  rw [← hmemory] at hshape
  rw [hshape]
  have hentry : ∀ f k, ((ci.unindex oid (recalled (ci.lastValues oid))).posting? f k).isSome ↔
      (ci.posting? f k).isSome := by
    intro f k
    rw [posting?_unindex, Option.isSome_map]
  refine ⟨⟨rfl, h.building, (Dict.keys_mapVal _ _).trans h.eqKeys,
    (Dict.keys_mapVal _ _).trans h.uniqueKeys, h.listFields, h.sortedFields, h.runKeys,
    fun f hf k hk => ?_, fun f hf j k hj hk => ?_, fun f hf k => ?_⟩, hentry, rfl⟩
  · exact h.noNan f hf k ((hentry f _).mp hk)
  · exact h.family f hf j k ((hentry f _).mp hj) ((hentry f _).mp hk)
  · exact (h.run f hf k).trans (hentry f _).symm

/-- Nothing is remembered of a field that is not indexed. -/
theorem snapshot_absent {indexed : List (String × List (Option Key))}
    (hf : f ∉ indexed.map Prod.fst) : snapshot indexed f = [] := by
  have hfind : indexed.find? (fun e => e.1 = f) = none :=
    List.find?_eq_none.mpr fun e he heq =>
      hf ((of_decide_eq_true heq) ▸ List.mem_map_of_mem he)
  unfold snapshot
  rw [hfind]
  rfl

/-- A scalar has at most one key. -/
theorem rowKeys_scalar (row : String → Val ρ) (hf : f ∉ ti.listFields) :
    (rowKeys ti row f).length ≤ 1 := by
  have hcontains : ti.listFields.contains f = false := by simpa using hf
  unfold rowKeys
  rw [hcontains]
  unfold Val.indexKeys
  rw [if_neg Bool.false_ne_true]
  cases (row f).scalarKey with
  | ok k => exact Nat.le_refl 1
  | error e => exact Nat.zero_le 1

/-- A write that returned. -/
theorem kept_insert (h : Kept ti ci) (row : String → Val ρ)
    (hnan : ∀ f ∈ ti.sortedFields, ∀ key, some key ∈ rowKeys ti row f → key.family ≠ .nan)
    (hrun : insert oid (entryOf ti row) ci = .ok () ci') :
    Kept ti ci' ∧ (∀ f k, (ci.posting? f k).isSome → (ci'.posting? f k).isSome) ∧
      (∀ f ∈ ti.maintainedFields,
        (row f).indexKeys (ti.listFields.contains f) = .ok (rowKeys ti row f)) ∧
      ∀ f ∈ ti.eqIndexFields, ∀ k ∈ rowKeys ti row f, (ci'.posting? f k).isSome := by
  -- The extent first, then the fields, then the memory of the OID.
  unfold insert at hrun
  rw [bind_run_ok (modify_run _ ci), bind_run_ok (modify_run _ _)] at hrun
  rcases bind_ok_iff.mp hrun with ⟨indexed, c, hindexed, hset⟩
  cases hset
  rcases uniform_forget h.toUniform oid with ⟨h₀, hentry, hforgot⟩
  have h₁ : Uniform ti ((ci.withLastValues.forget oid).setExtent
      (Insert.insert oid (ci.withLastValues.forget oid).extent)) :=
    { h₀ with }
  rcases uniform_indexEntries row ti.relevant hnan h₁ hindexed with
    ⟨h₂, hgrown, rfl, hkeyed, hentries⟩
  -- Only the memory of this OID is new.
  have hmemory : ∀ n f, recalled ((c.setMemory oid (snapshot (ti.relevant.map
      fun f => (f, rowKeys ti row f)))).lastValues n) f =
      if n = oid then snapshot (ti.relevant.map fun f => (f, rowKeys ti row f)) f
      else recalled (ci.lastValues n) f := by
    intro n f
    have hlast : c.lastValues = Function.update ci.lastValues oid none :=
      hgrown.lastValues.trans hforgot
    unfold setMemory
    dsimp only
    rw [hlast, Function.update_idem, recalled_update, recalled_some]
  refine ⟨⟨{ h₂ with }, fun n f hf => ?_, fun n f hf => ?_⟩, fun f k hk => ?_,
    fun f hf => hkeyed f ((mem_relevant ti f).mpr hf), fun f hf => hentries f
      ((mem_relevant ti f).mpr ((ti.mem_maintainedFields f).mpr (Or.inl hf))) hf⟩
  · rw [hmemory]
    by_cases hn : n = oid
    · rw [if_pos hn]
      by_cases hm : f ∈ ti.relevant
      · rw [snapshot_map _ _ f hm]
        exact rowKeys_scalar row hf
      · rw [snapshot_absent (by rw [List.map_map]; simpa using hm)]
        exact Nat.zero_le 1
    · rw [if_neg hn]
      exact h.scalar n f hf
  · rw [hmemory]
    by_cases hn : n = oid
    · rw [if_pos hn]
      exact snapshot_absent (by
        rw [List.map_map]
        simpa [mem_relevant] using hf)
    · rw [if_neg hn]
      exact h.absent n f hf
  · exact hgrown.entries f k ((hentry f k).mpr hk)

theorem kept_remove (h : Kept ti ci) (oid : Nat) : Kept ti (ci.remove oid) ∧
    ∀ f k, (ci.posting? f k).isSome → ((ci.remove oid).posting? f k).isSome := by
  rcases uniform_forget h.toUniform oid with ⟨h₀, hentry, hforgot⟩
  unfold remove
  refine ⟨⟨{ h₀ with }, fun n f hf => ?_, fun n f hf => ?_⟩, fun f k hk => (hentry f k).mpr hk⟩
  · change (recalled ((ci.withLastValues.forget oid).lastValues n) f).length ≤ 1
    rw [hforgot, recalled_update]
    by_cases hn : n = oid
    · rw [if_pos hn]
      exact Nat.zero_le 1
    · rw [if_neg hn]
      exact h.scalar n f hf
  · change recalled ((ci.withLastValues.forget oid).lastValues n) f = []
    rw [hforgot, recalled_update]
    by_cases hn : n = oid
    · rw [if_pos hn]
      rfl
    · rw [if_neg hn]
      exact h.absent n f hf

/-- Steps that all returned and brought no NaN into a sorted field have entered
    every key they wrote, and no entry is ever dropped. -/
theorem kept_folds (folds : List (Fold ρ)) : ∀ {ci : ClassIndexes}, Kept ti ci →
    (∀ d ∈ folds, d.Ordered ti) → foldAll ti folds ci = .ok () ci' →
    Kept ti ci' ∧ (∀ f k, (ci.posting? f k).isSome → (ci'.posting? f k).isSome) ∧
      ∀ oid row, Fold.insert oid row ∈ folds →
        (∀ f ∈ ti.maintainedFields,
          (row f).indexKeys (ti.listFields.contains f) = .ok (rowKeys ti row f)) ∧
        ∀ f ∈ ti.eqIndexFields, ∀ k ∈ rowKeys ti row f, (ci'.posting? f k).isSome := by
  unfold foldAll
  induction folds with
  | nil =>
      intro ci h _ hrun
      cases hrun
      exact ⟨h, fun f k hk => hk, fun oid row hmem => absurd hmem List.not_mem_nil⟩
  | cons d folds ih =>
      intro ci h hord hrun
      rw [forM_cons_run] at hrun
      rcases bind_ok_iff.mp hrun with ⟨_, c₁, hone, hrest⟩
      have hords : ∀ e ∈ folds, e.Ordered ti := fun e he => hord e (List.mem_cons_of_mem d he)
      cases d with
      | insert oid row =>
          rcases kept_insert h row (hord _ List.mem_cons_self) hone with ⟨h₁, hgrown, hkeyed, hentry⟩
          rcases ih h₁ hords hrest with ⟨h₂, hgrown', hrows⟩
          refine ⟨h₂, fun f k hk => hgrown' f k (hgrown f k hk), fun n r hmem => ?_⟩
          rcases List.mem_cons.mp hmem with heq | hmem
          · cases heq
            exact ⟨hkeyed, fun f hf k hk => hgrown' f k (hentry f hf k hk)⟩
          · exact hrows n r hmem
      | remove oid =>
          cases hone
          rcases kept_remove h oid with ⟨h₁, hgrown⟩
          rcases ih h₁ hords hrest with ⟨h₂, hgrown', hrows⟩
          refine ⟨h₂, fun f k hk => hgrown' f k (hgrown f k hk), fun n r hmem => ?_⟩
          exact hrows n r ((List.mem_cons.mp hmem).resolve_left fun hc => nomatch hc)

/-- Indexes no record was written to. -/
theorem kept_fresh (ti : TypeInfo) : Kept ti (freshIndexes ti) := by
  have hnames : ∀ {p : FieldSpec → Bool}, ((ti.specs.filter p).map FieldSpec.name).Nodup :=
    ti.fieldNames_nodup.sublist (List.filter_sublist.map _)
  have hkeys : ∀ {α : Type} (fields : List String) (v : α), fields.Nodup →
      (Dict.ofList (fields.map fun f => (f, v))).keys = fields := by
    intro α fields v hnd
    have hmap : (fields.map fun f => (f, v)).map Prod.fst = fields := by
      rw [List.map_map]
      exact List.map_id _
    rw [Dict.keys_ofList (by rw [hmap]; exact hnd), hmap]
  have hempty : ∀ f k, (freshIndexes ti).posting? f k = none := by
    intro f k
    unfold posting? freshIndexes ClassIndexes.init
    rw [Dict.get?_ofList_const]
    split <;> rfl
  refine ⟨⟨rfl, rfl, hkeys _ _ hnames, hkeys _ _ hnames, rfl, rfl, hkeys _ _ hnames,
    fun f _ k hk => ?_, fun f _ j k hj => ?_, fun f hf k => ?_⟩, fun n f _ => Nat.zero_le 1,
    fun n f _ => rfl⟩
  · rw [hempty] at hk
    cases hk
  · rw [hempty] at hj
    cases hj
  · rw [hempty]
    unfold ClassIndexes.run freshIndexes ClassIndexes.init
    rw [Dict.getD, Dict.get?_ofList_const, if_pos hf]
    simp

/-- The family the keys of each sorted field are of. -/
def familyOf (ci : ClassIndexes) (f : String) : Family :=
  ((ci.run f).head?.map Key.family).getD .number

/-- Steps that all returned were admitted, each field's family being the one its
    keys ended with. -/
theorem runs_of_returned {folds : List (Fold ρ)} (hord : ∀ d ∈ folds, d.Ordered ti)
    (hrun : foldAll ti folds (freshIndexes ti) = .ok () ci) :
    Kept ti ci ∧ Runs (familyOf ci) ti (currentRow folds) ci := by
  rcases kept_folds folds (kept_fresh ti) hord hrun with ⟨h, -, hrows⟩
  have hfamily : ∀ f ∈ ti.sortedFields, ∀ k, (ci.posting? f (some k)).isSome →
      k.family = familyOf ci f := by
    intro f hf k hk
    unfold familyOf
    cases hhead : (ci.run f).head? with
    | none =>
        have hmem := (h.run f hf k).mpr hk
        rw [List.head?_eq_none_iff.mp hhead] at hmem
        exact absurd hmem List.not_mem_nil
    | some a =>
        have ha := (h.run f hf a).mp (List.mem_of_mem_head? (by rw [hhead]; rfl))
        exact h.family f hf k a hk ha
  have hne : ∀ f ∈ ti.sortedFields, familyOf ci f ≠ .nan := by
    intro f hf
    unfold familyOf
    cases hhead : (ci.run f).head? with
    | none => exact fun hc => nomatch hc
    | some a =>
        exact h.noNan f hf a ((h.run f hf a).mp (List.mem_of_mem_head? (by rw [hhead]; rfl)))
  -- So every fold is admitted under the family of the run.
  have hadm : ∀ d ∈ folds, d.Admitted (fun f => .family (familyOf ci f)) ti := by
    intro d hd
    cases d with
    | insert oid row =>
        rcases hrows oid row hd with ⟨hkeyed, hentry⟩
        refine ⟨hkeyed, fun f hf k hk => ?_⟩
        have hkf := hfamily f hf k (hentry f (ti.eqIndexFields_of_sorted hf) (some k) hk)
        have hkn := hord _ hd f hf k hk
        simpa [Key.ordersIn, hkf] using hkf ▸ hkn
    | remove oid => trivial
  -- And the indexes these folds make are the ones at hand.
  refine ⟨h, ?_⟩
  rcases runs_folds folds (runs_fresh hne) hadm hord with ⟨c, hrun', hruns⟩
  unfold foldAll at hrun
  rw [hrun] at hrun'
  cases hrun'
  exact hruns

end Folding

section Loading

/-- Sorting the runs stores under fields that have a run. -/
theorem finalizeBuild_keys {runs : List String} (hfields : ci.sortedFields = runs)
    (hkeys : ci.sortedKeys.keys = runs) {u : Unit} (hrun : finalizeBuild ci = .ok u ci') :
    ci'.sortedKeys.keys = runs := by
  have hkeeps : Keeps (fun c : ClassIndexes => c.sortedKeys.keys = runs)
      (runs.forM fun f => do
        let run ← ofExcept (buildRun f (ci.decimals f) (ci.distinctKeys f))
        modify fun ci => { ci with sortedKeys := ci.sortedKeys.set f run }) := by
    refine moves_forM_mem runs fun f hf => moves_bind (moves_ofExcept _) fun run => ?_
    refine moves_modify fun c hc => ?_
    exact (Dict.keys_set_of_mem (hc ▸ hf) run).trans hc
  unfold finalizeBuild at hrun
  rw [bind_run_ok (get_run ci), hfields] at hrun
  rcases bind_ok_iff.mp hrun with ⟨_, c, hloop, hset⟩
  cases hset
  have hkept := hkeeps.of_ok hloop hkeys
  exact hkept

/-- A loaded index is the one that was dumped, but for the memory, which it is
    still to recover. -/
theorem load_dump (h : Kept ti ci) (hs : Sound fam ci) :
    load ci.dump ti = .ok (some { ci with lastValues := fun _ => none, needsLvRebuild := true }) := by
  -- The index is dumped under the fields it is loaded with.
  have hmatch : blobMatches ci.dump ti = true := by
    unfold blobMatches dump
    simp only [h.eqKeys, h.uniqueKeys, h.listFields, h.sortedFields, Bool.and_eq_true,
      List.isPerm_iff]
    exact ⟨⟨⟨List.Perm.refl _, List.Perm.refl _⟩, List.Perm.refl _⟩, List.Perm.refl _⟩
  have hordered : ∀ f ∈ (ofBlob ci.dump).sortedFields, fam f ≠ .nan := hs.ordered
  rcases finalizeBuild_spec hordered hs.keys with ⟨runs, hrun, hsound⟩
  have hnd : ti.sortedFields.Nodup :=
    ti.fieldNames_nodup.sublist (List.filter_sublist.map _)
  have hblobKeys : (ofBlob ci.dump).sortedKeys.keys = ti.sortedFields := by
    have hmap : (ti.sortedFields.map fun f => (f, ([] : List Key))).map Prod.fst =
        ti.sortedFields := by
      rw [List.map_map]
      exact List.map_id _
    unfold ofBlob dump
    dsimp only
    rw [h.sortedFields, Dict.keys_ofList (by rw [hmap]; exact hnd), hmap]
  have hblobFields : (ofBlob ci.dump).sortedFields = ti.sortedFields := h.sortedFields
  have hkeys : runs.keys = ti.sortedFields := finalizeBuild_keys hblobFields hblobKeys hrun
  -- The runs are sorted again from the keys, and an ascending run of the same keys is the same.
  have hruns : runs = ci.sortedKeys := by
    refine Dict.ext_of_keys (hkeys.trans h.runKeys.symm) fun f hf => ?_
    have hfs : f ∈ ci.sortedFields := h.sortedFields ▸ hkeys ▸ hf
    have hsame : runs.getD f [] = ci.run f := by
      refine ascending_ext (Key.orderedOn_family (fam f) (hs.ordered f hfs)) (fun a ha => ?_)
        (fun a ha => ?_) (hsound.ascending rfl f hfs) (hs.ascending h.building f hfs) fun a => ?_
      · exact hs.keys f hfs a ((hsound.run rfl f hfs a).mp ha)
      · exact hs.keys f hfs a ((hs.run h.building f hfs a).mp ha)
      · exact (hsound.run rfl f hfs a).trans (hs.run h.building f hfs a).symm
    rcases (Dict.mem_keys_iff _ _).mp hf with ⟨r, hr⟩
    have hf' : f ∈ ci.sortedKeys.keys := h.runKeys ▸ hkeys ▸ hf
    rcases (Dict.mem_keys_iff _ _).mp hf' with ⟨r', hr'⟩
    unfold ClassIndexes.run Dict.getD at hsame
    rw [hr, hr', Option.getD_some, Option.getD_some] at hsame
    rw [hr, hr', hsame]
  unfold load
  rw [if_pos hmatch, hrun, hruns]
  unfold ofBlob dump
  rw [← h.building]

theorem rebuiltKeys_nodup (hf : f ∈ ci.eq.keys) : (ci.rebuiltKeys oid f).Nodup := by
  rcases (Dict.mem_keys_iff _ _).mp hf with ⟨col, hcol⟩
  unfold rebuiltKeys
  rw [hcol]
  exact (Dict.nodup_keys col).sublist (List.filter_sublist.map _)

/-- Two lists with the same elements, one of them with at most one and the other
    without repetitions. -/
theorem eq_of_length_le_one {α : Type} {xs ys : List α} (hlen : xs.length ≤ 1) (hnd : ys.Nodup)
    (hmem : ∀ a, a ∈ xs ↔ a ∈ ys) : xs = ys := by
  rcases xs with _ | ⟨a, _ | ⟨b, rest⟩⟩
  · exact (List.eq_nil_iff_forall_not_mem.mpr fun a ha => by simpa using (hmem a).mpr ha).symm
  · have hperm : [a].Perm ys := (List.perm_ext_iff_of_nodup (List.nodup_singleton a) hnd).mpr hmem
    exact (List.perm_singleton.mp hperm.symm).symm
  · simp at hlen

/-- A label column has postings if its class has it at all. -/
theorem label_posted (ti : TypeInfo) (hf : f ∈ permFields) : f ∈ ti.eqIndexFields ∨ f ∉ ti.maintainedFields := by
  by_cases hm : f ∈ ti.maintainedFields
  · left
    rcases (ti.mem_maintainedFields f).mp hm with hfe | hfu
    · exact hfe
    · rcases (ti.mem_uniqueFields f).mp hfu with ⟨s, hs, hunique, rfl⟩
      -- No label column is unique, and no declared field has the name of one.
      rcases List.mem_append.mp hs with hs | hs
      · exact absurd hf (ti.not_reserved s hs)
      · split at hs
        · simp only [permSpecs, List.mem_cons, List.not_mem_nil, or_false] at hs
          rcases hs with rfl | rfl | rfl | rfl <;> cases hunique
        · exact absurd hs List.not_mem_nil
  · exact Or.inr hm

/-- The owner and the read floor are scalars. -/
theorem label_scalar (hf : f = "_dc_owner" ∨ f = "_dc_read_floor") : f ∉ ti.listFields := by
  intro hlist
  have hperm : f ∈ permFields := by
    rcases hf with rfl | rfl <;> decide
  rcases (ti.mem_listFields f).mp hlist with ⟨s, hs, hmulti, rfl⟩
  rcases List.mem_append.mp hs with hs | hs
  · exact absurd hperm (ti.not_reserved s hs)
  · split at hs
    · simp only [permSpecs, List.mem_cons, List.not_mem_nil, or_false] at hs
      rcases hs with rfl | rfl | rfl | rfl <;> simp at hmulti hf
    · exact absurd hs List.not_mem_nil

/-- A current row was written. -/
theorem mem_of_currentRow (folds : List (Fold ρ)) {row : String → Val ρ} :
    ∀ {current : Nat → Option (String → Val ρ)}, folds.foldl Fold.rows current oid = some row →
      current oid = some row ∨ Fold.insert oid row ∈ folds := by
  induction folds with
  | nil => exact fun h => Or.inl h
  | cons d folds ih =>
      intro current h
      rcases ih h with h | h
      · cases d with
        | insert n r =>
            change Function.update current n (some r) oid = some row at h
            by_cases hn : oid = n
            · subst hn
              rw [Function.update_self] at h
              rw [Option.some.inj h]
              exact Or.inr List.mem_cons_self
            · rw [Function.update_of_ne hn] at h
              exact Or.inl h
        | remove n =>
            change Function.update current n none oid = some row at h
            by_cases hn : oid = n
            · rw [hn, Function.update_self] at h
              cases h
            · rw [Function.update_of_ne hn] at h
              exact Or.inl h
      · exact Or.inr (List.mem_cons_of_mem d h)

/-- The memory read off the postings un-indexes as the original does, if no list
    holds `None`. -/
theorem sameMemory_rebuilt {current : Nat → Option (String → Val ρ)} (h : Kept ti ci)
    (hr : Runs fam ti current ci)
    (hlists : ∀ f ∈ ti.listFields, ∀ n, none ∉ recalled (keyRows ti current n) f) :
    SameMemory ci ci.lastValues ci.rebuildLastValues.lastValues := by
  have hrep := hr.represents
  have hcurrent : ci.withLastValues = ci := withLastValues_eq h.current
  -- An indexed field: what is recalled is what is posted, and the rebuilt memory reads the
  -- postings. Only the marker of an empty list is told apart.
  have hposted : ∀ n, ∀ f ∈ ci.eq.keys, ∀ k,
      k ∈ recalled (ci.lastValues n) f ↔ k ∈ recalled (ci.rebuildLastValues.lastValues n) f := by
    intro n f hf k
    have hfe : f ∈ ti.eqIndexFields := h.eqKeys ▸ hf
    have hmemory := hrep.memory n f hfe k
    rw [hcurrent] at hmemory
    rw [recalled_rebuild (List.mem_append_left _ hf), mem_rebuiltKeys hf, hmemory,
      hrep.posting f hfe k n]
    refine ⟨fun hk => ⟨hk, fun hno => ?_⟩, fun hk => hk.1⟩
    rw [hno.2] at hk
    exact hlists f (h.listFields ▸ hno.1) n hk
  -- A field that is not kept has nothing to rebuild from.
  have hunposted : ∀ n f, f ∉ ti.maintainedFields →
      recalled (ci.rebuildLastValues.lastValues n) f = [] := by
    intro n f hf
    have hnone : ci.rebuiltKeys n f = [] := by
      have hfe : f ∉ ci.eq.keys := fun hc =>
        hf ((ti.mem_maintainedFields f).mpr (Or.inl (h.eqKeys ▸ hc)))
      have hfu : f ∉ ci.unique.keys := fun hc =>
        hf ((ti.mem_maintainedFields f).mpr (Or.inr (h.uniqueKeys ▸ hc)))
      unfold rebuiltKeys
      rw [(Dict.not_mem_keys_iff _ _).mp hfe, (Dict.not_mem_keys_iff _ _).mp hfu]
    unfold rebuildLastValues
    dsimp only
    split
    · exact hnone
    · rfl
  -- A scalar label has at most one key, so equal sets of keys are equal lists.
  have hscalar : ∀ n f, f = "_dc_owner" ∨ f = "_dc_read_floor" →
      recalled (ci.lastValues n) f = recalled (ci.rebuildLastValues.lastValues n) f := by
    intro n f hf
    have hperm : f ∈ permFields := by
      rcases hf with rfl | rfl <;> decide
    rcases label_posted ti hperm with hfe | hno
    · have hfk : f ∈ ci.eq.keys := h.eqKeys ▸ hfe
      refine eq_of_length_le_one (h.scalar n f (label_scalar hf)) ?_ (hposted n f hfk)
      rw [recalled_rebuild (List.mem_append_left _ hfk)]
      exact rebuiltKeys_nodup hfk
    · rw [h.absent n f hno, hunposted n f hno]
  refine ⟨hposted, fun n f k hk => ?_, fun n => hscalar n _ (Or.inl rfl),
    fun n => hscalar n _ (Or.inr rfl), fun n k => ?_⟩
  · have hfu : f ∈ ci.unique.keys := mem_keys_of_holder hk
    have hmemory := hrep.uniqueMemory n f (h.uniqueKeys ▸ hfu) k
    rw [hcurrent] at hmemory
    by_cases hfe : f ∈ ci.eq.keys
    · exact hposted n f hfe (some k)
    · -- the memory of a unique-only field is its map, and the map names the OID
      rw [recalled_rebuild (List.mem_append_right _ hfu), mem_rebuiltKeys_unique hfe, hmemory]
      exact ⟨fun _ => hk, fun _ => hrep.holds f (h.uniqueKeys ▸ hfu) k n hk⟩
  · have hperm : "_dc_groups" ∈ permFields := by decide
    rcases label_posted ti hperm with hfe | hno
    · exact hposted n _ (h.eqKeys ▸ hfe) k
    · rw [h.absent n _ hno, hunposted n _ hno]

end Loading

end ClassIndexes

open ClassIndexes

variable {ρ : Type} {ti : TypeInfo}

/-- A step that brings no `None` into a list field. -/
def Fold.NoneFree (ti : TypeInfo) : Fold ρ → Prop
  | insert _ row => ∀ f ∈ ti.listFields, none ∉ rowKeys ti row f
  | remove _ => True

/-- What a commit folds into the reverse index: the references of what it wrote,
    or what it deleted. -/
inductive RefFold
  | write (entries : List RefEntry)
  | delete (oids : List Nat)

/-- Fold one step into the reverse index. -/
def RefFold.apply (m : IndexManager) : RefFold → IndexManager
  | write entries => m.applyReverse entries
  | delete oids => m.removeReverse oids

/-- The manager after a sequence of steps. -/
def foldRefs (folds : List RefFold) (m : IndexManager) : IndexManager := folds.foldl RefFold.apply m

/-- The reverse postings a session leaves, if it built them. -/
def IndexManager.dumpReverse (m : IndexManager) : Option RefEdges := m.reverse

/-- A session that loads the reverse postings another one left. -/
def restartReverse (b : Backend) (cids : List Nat) (m : IndexManager) : IndexManager :=
  IndexManager.ensureReverse b cids { reverseBlob := m.dumpReverse }

section ReverseIndex

variable {m m' : IndexManager}

/-- What a step makes of the postings, if the memory is the postings. -/
theorem refFold_reverse {rev : RefEdges} (h : m.Remembered) (hrev : m.reverse = some rev)
    (h' : m'.Remembered) (hrev' : m'.reverse = some rev) (d : RefFold) :
    (d.apply m).reverse = (d.apply m').reverse ∧ ((d.apply m).reverse).isSome ∧
      (d.apply m).Remembered ∧ (d.apply m').Remembered := by
  cases d with
  | write entries =>
      refine ⟨?_, ?_, IndexManager.applyReverse_remembered h entries,
        IndexManager.applyReverse_remembered h' entries⟩
      · rw [RefFold.apply, RefFold.apply, IndexManager.applyReverse_some h hrev,
          IndexManager.applyReverse_some h' hrev']
      · rw [RefFold.apply, IndexManager.applyReverse_some h hrev]
        rfl
  | delete oids =>
      refine ⟨?_, ?_, IndexManager.removeReverse_remembered h oids,
        IndexManager.removeReverse_remembered h' oids⟩
      · rw [RefFold.apply, RefFold.apply, IndexManager.removeReverse_some h hrev,
          IndexManager.removeReverse_some h' hrev']
      · rw [RefFold.apply, IndexManager.removeReverse_some h hrev]
        rfl

/-- Two managers with the same postings, each remembering them, keep them the
    same. -/
theorem foldRefs_reverse (folds : List RefFold) : ∀ {m m' : IndexManager}, m.Remembered →
    m'.Remembered → m.reverse = m'.reverse → m.reverse.isSome →
    (foldRefs folds m).reverse = (foldRefs folds m').reverse ∧
      (foldRefs folds m).reverse.isSome ∧ (foldRefs folds m).Remembered := by
  unfold foldRefs
  induction folds with
  | nil => exact fun h _ hsame hsome => ⟨hsame, hsome, h⟩
  | cons d folds ih =>
      intro m m' h h' hsame hsome
      rcases Option.isSome_iff_exists.mp hsome with ⟨rev, hrev⟩
      rcases refFold_reverse h hrev h' (hsame ▸ hrev) d with ⟨hone, hstill, h₁, h₁'⟩
      exact ih h₁ h₁' hone hstill

/-- The reverse index of a new session is built from the records. -/
theorem built_remembered (b : Backend) (cids : List Nat) :
    (IndexManager.ensureReverse b cids {}).Remembered ∧
      (IndexManager.ensureReverse b cids {}).reverse.isSome :=
  ⟨IndexManager.ensureReverse_remembered (IndexManager.remembered_of_none rfl) b cids, rfl⟩

/-- A loaded reverse index has the postings it was dumped with, and recovers its
    memory from them. -/
theorem restartReverse_remembered (h : m.reverse.isSome) (b : Backend) (cids : List Nat) :
    (restartReverse b cids m).Remembered ∧ (restartReverse b cids m).reverse = m.reverse := by
  refine ⟨IndexManager.ensureReverse_remembered (IndexManager.remembered_of_none rfl) b cids, ?_⟩
  rcases Option.isSome_iff_exists.mp h with ⟨rev, hrev⟩
  unfold restartReverse IndexManager.dumpReverse
  rw [hrev]
  rfl

end ReverseIndex

/-- A protected class with no fields of its own. -/
def labelledInfo : TypeInfo := { dataSpecs := [], isProtected := true }

/-- The row of a record with these labels. -/
def labelRow (l : Labels) (f : String) : Val LiveRef := (l.column f).getD .none

/-- Two records in the same two groups. -/
def regrouped : List (Fold LiveRef) :=
  [.insert 1 (labelRow ⟨0, [1, 2], 0, 0⟩), .insert 2 (labelRow ⟨0, [2, 1], 0, 0⟩)]

/-- A class with an inverted list, an indexed and a sorted field. -/
def taggedInfo : TypeInfo :=
  { dataSpecs :=
    [{ name := "tags", indexed := true, multivalued := true, entityRef := false },
     { name := "at", sorted := true, entityRef := false }] }

/-- A record with these tags and this time. -/
def taggedRow (tags : List (Val LiveRef)) (at_ : Val LiveRef) (f : String) : Val LiveRef :=
  if f = "tags" then .seq .list tags else if f = "at" then at_ else .none

def noon (kind : TemporalKind) : Val LiveRef := .scalar (.temporal kind 0)

end DataCrystal
