import DataCrystal.Index.Build
import DataCrystal.Index.Manager

/-!
# Indexes That Never Raise

Folding a write into an index raises when the value is of no indexable type or
when the key of a sorted field does not compare with the run. Neither happens as
long as the keys of each sorted field are of one kind: whatever the index stands
for, and whether its runs are sorted or not. A kind is a family without NaN, or
the numbers that are no `Decimal`, float NaNs among them. A float NaN and a
`Decimal` are both numbers and are in no kind together, for they do not compare.

This asks less than `Sound` and says less: a run with a float NaN in it is in no
order, but an insertion into it still answers.

## Main definitions

* `Kin`: Keys that all compare with each other.
* `Key.ordersIn`: A key, with what object it is, belongs to a kind.
* `Sortable`: A row that an orderly index takes.
* `Orderly`: An index whose sorted fields keep to their kinds.

## Theorems

* `orderly_insert`, `orderly_remove`: Folding in a write and a delete.
* `orderly_build`, `orderly_load`: Making the index of a class.
-/

namespace DataCrystal

/-- Keys that compare with each other: those of a family, or the numbers that
    are no `Decimal`, a float NaN among them. -/
inductive Kin
  | family (fam : Family)
  | binary
  deriving DecidableEq, Repr

namespace Kin

/-- The family of the keys of a kind that are not NaN. -/
def base : Kin → Family
  | family fam => fam
  | binary => .number

/-- The kinds of sorted fields that each hold one family. -/
def ofFamilies (fam : String → String → Family) : String → String → Kin :=
  fun c f => family (fam c f)

end Kin

/-- Whether a key belongs to a kind; `decimal` says that its object is a
    `Decimal`. -/
def Key.ordersIn (kin : Kin) (decimal : Bool) (k : Key) : Bool :=
  match kin with
  | .family fam => k.family = fam && k.family ≠ .nan
  | .binary => (k.family = .number || k.family = .nan) && !decimal

/-- A key of a kind that is not NaN is of its family. -/
theorem Key.family_of_ordersIn {kin : Kin} {decimal : Bool} {k : Key}
    (h : k.ordersIn kin decimal = true) (hne : k.family ≠ .nan) : k.family = kin.base := by
  cases kin <;> simp_all [Key.ordersIn, Kin.base]

/-- Two keys of a kind compare. -/
theorem Key.ltOf_answers {kin : Kin} {decimals : Key → Bool} {a b : Key}
    (ha : a.ordersIn kin (decimals a) = true) (hb : b.ordersIn kin (decimals b) = true) :
    ∃ r, Key.ltOf decimals a b = .ok r := by
  cases kin with
  | family fam =>
      simp only [Key.ordersIn, ne_eq, decide_not, Bool.and_eq_true, decide_eq_true_eq,
        Bool.not_eq_true', decide_eq_false_iff_not] at ha hb
      have hfam : fam ≠ .nan := ha.1 ▸ ha.2
      rcases (Key.orderedOn_ltOf decimals fam hfam).answers a b ha.1 hb.1 with h | h
      · exact ⟨true, h⟩
      · exact ⟨false, h⟩
  | binary =>
      -- No `Decimal` takes part, so a NaN answers false.
      simp only [Key.ordersIn, Bool.and_eq_true, Bool.not_eq_true'] at ha hb
      rw [Key.ltOf, ha.2, hb.2]
      cases a <;> cases b <;> simp_all [Key.family, Key.ltAs]

theorem mixesTemporal_ordersIn {kin : Kin} {da db : Bool} {a b : Key}
    (ha : a.ordersIn kin da = true) (hb : b.ordersIn kin db = true) : mixesTemporal a b = false := by
  -- Only two temporal keys could clash, and those are of one kind here.
  cases a <;> cases b <;> try simp [mixesTemporal, Key.isDatetime]
  rename_i kind t kind' t'
  intro _ _
  have hkind : Key.family (.temporal kind t) = Key.family (.temporal kind' t') :=
    (Key.family_of_ordersIn ha (by simp [Key.family])).trans
      (Key.family_of_ordersIn hb (by simp [Key.family])).symm
  exact hkind

/-- The values of the maintained fields are of indexable types, and the values of
    a sorted field compare with each other. -/
structure Sortable {ρ : Type} (kin : String → Kin) (ti : TypeInfo) (row : String → Val ρ) :
    Prop where
  keyed : ∀ f ∈ ti.maintainedFields,
    (row f).indexKeys (ti.listFields.contains f) = .ok (rowKeys ti row f)
  ordered : ∀ f ∈ ti.sortedFields, ∀ k, some k ∈ rowKeys ti row f →
    k.ordersIn (kin f) ((row f).decimalAt k) = true

instance {ρ : Type} (kin : String → Kin) (ti : TypeInfo) (row : String → Val ρ) :
    Decidable (Sortable kin ti row) :=
  decidable_of_iff ((∀ f ∈ ti.maintainedFields,
      (row f).indexKeys (ti.listFields.contains f) = .ok (rowKeys ti row f)) ∧
    ∀ f ∈ ti.sortedFields, ∀ o ∈ rowKeys ti row f, o.all fun k =>
      k.ordersIn (kin f) ((row f).decimalAt k))
  ⟨fun h => ⟨h.1, fun f hf k hk => by simpa using h.2 f hf _ hk⟩,
    fun h => ⟨h.keyed, fun f hf o ho => by
      cases o with
      | none => rfl
      | some k => simpa using h.ordered f hf k ho⟩⟩

theorem Conforms.sortable {ρ : Type} {fam : String → Family} {ti : TypeInfo}
    {row : String → Val ρ} (h : Conforms fam ti row) :
    Sortable (fun f => .family (fam f)) ti row := by
  refine ⟨h.keyed, fun f hf k hk => ?_⟩
  have hfam := h.ordered f hf k hk
  have hne := h.noNan f ((ti.mem_maintainedFields f).mpr (Or.inl (ti.eqIndexFields_of_sorted hf))) k hk
  simpa [Key.ordersIn, hfam] using hfam ▸ hne

namespace ClassIndexes

variable {ρ : Type} {kin : String → Kin} {ti : TypeInfo} {ci ci' : ClassIndexes}

/-- The keys of each sorted field compare with each other, in its postings and in
    its run. This is less than a sorted run: it is what a fold needs not to raise,
    whichever keys come next. -/
structure Orderly (kin : String → Kin) (ti : TypeInfo) (ci : ClassIndexes) : Prop where
  listFields : ∀ f, f ∈ ci.listFields ↔ f ∈ ti.listFields
  sortedFields : ∀ f, f ∈ ci.sortedFields ↔ f ∈ ti.sortedFields
  keys : ∀ f ∈ ti.sortedFields, ∀ k, (ci.posting? f (some k)).isSome →
    k.ordersIn (kin f) (ci.decimals f k) = true
  run : ∀ f ∈ ti.sortedFields, ∀ k ∈ ci.run f, k.ordersIn (kin f) (ci.decimals f k) = true

theorem orderly_enterSortedRun (h : Orderly kin ti ci) (f : String) (k : Key)
    (hk : f ∈ ti.sortedFields → k.ordersIn (kin f) (ci.decimals f k) = true) :
    ∃ ci', enterSortedRun f k ci = .ok () ci' ∧ Orderly kin ti ci' ∧
      ci'.decimals = ci.decimals := by
  rw [enterSortedRun, bind_run_ok (get_run ci)]
  by_cases hin : (ci.sortedFields.contains f && !ci.building) = true
  · rw [if_pos hin]
    have hf : f ∈ ti.sortedFields := (h.sortedFields f).mp (by simp_all)
    have hmix : ((ci.run f).head?.map (mixesTemporal k)).getD false = false := by
      cases hhead : (ci.run f).head? with
      | none => rfl
      | some j => exact mixesTemporal_ordersIn (hk hf) (h.run f hf j (List.mem_of_mem_head? hhead))
    have hans : ∀ a ∈ ci.run f, ∃ r, Key.ltOf (ci.decimals f) k a = .ok r := fun a ha =>
      Key.ltOf_answers (hk hf) (h.run f hf a ha)
    rcases insort_answers hans with ⟨run, hrun, hmem⟩
    refine ⟨{ ci with sortedKeys := ci.sortedKeys.set f run }, ?_, ⟨h.listFields, h.sortedFields,
      h.keys, fun g hg j hj => ?_⟩, rfl⟩
    · rw [hmix, hrun]
      rfl
    · rw [ClassIndexes.run, Dict.getD, Dict.get?_set] at hj
      by_cases hgf : g = f
      · rw [if_pos hgf, Option.getD_some] at hj
        rw [hgf]
        exact (hmem j hj).elim (fun hjk => hjk ▸ hk hf) (h.run f hf j)
      · rw [if_neg hgf] at hj
        exact h.run g hg j hj
  · rw [if_neg hin]
    exact ⟨ci, rfl, h, rfl⟩

/-- Noting what object a new key is; the other keys stay what they were. -/
theorem orderly_noteObject (h : Orderly kin ti ci) (f : String) (k : Key) (decimal : Bool)
    (hk : f ∈ ti.sortedFields → k.ordersIn (kin f) decimal = true) :
    Orderly kin ti (ci.noteObject f k decimal) := by
  have hobj : ∀ g ∈ ti.sortedFields, ∀ j : Key, j.ordersIn (kin g) (ci.decimals g j) = true →
      j.ordersIn (kin g) ((ci.noteObject f k decimal).decimals g j) = true := by
    intro g hg j hj
    rw [noteObject]
    dsimp only
    by_cases hgf : g = f
    · subst hgf
      rw [Function.update_self]
      by_cases hjk : j = k
      · rw [hjk, Function.update_self]
        exact hk hg
      · rw [Function.update_of_ne hjk]
        exact hj
    · rw [Function.update_of_ne hgf]
      exact hj
  exact ⟨h.listFields, h.sortedFields, fun g hg j hj => hobj g hg j (h.keys g hg j hj),
    fun g hg j hj => hobj g hg j (h.run g hg j hj)⟩

/-- A key is in its kind once it has an entry: as it was before, or as it comes. -/
theorem orderly_enterNewKey (h : Orderly kin ti ci) (f : String) (decimalAt : Key → Bool)
    (k : Option Key) (hk : f ∈ ti.sortedFields → ∀ key, k = some key →
      key.ordersIn (kin f) (decimalAt key) = true) :
    ∃ ci', enterNewKey f decimalAt k ci = .ok () ci' ∧ Orderly kin ti ci' ∧
      (f ∈ ti.sortedFields → ∀ key, k = some key →
        key.ordersIn (kin f) (ci'.decimals f key) = true) := by
  rw [enterNewKey, bind_run_ok (get_run ci)]
  cases k with
  | none => exact ⟨ci, rfl, h, fun _ key hkey => absurd hkey (by simp)⟩
  | some key =>
      cases hp : ci.posting? f (some key) with
      | some p =>
          refine ⟨ci, rfl, h, fun hf key' hkey => ?_⟩
          rw [← Option.some.inj hkey]
          exact h.keys f hf key (by rw [hp]; rfl)
      | none =>
          have hnoted : (ci.noteObject f key (decimalAt key)).decimals f key = decimalAt key := by
            simp [noteObject]
          have h₁ := orderly_noteObject h f key (decimalAt key) fun hf => hk hf key rfl
          rcases orderly_enterSortedRun h₁ f key
            (fun hf => by rw [hnoted]; exact hk hf key rfl) with ⟨ci', hrun, h₂, hdec⟩
          refine ⟨ci', ?_, h₂, fun hf key' hkey => ?_⟩
          · dsimp only
            rw [bind_run_ok (modify_run _ ci)]
            exact hrun
          · rw [← Option.some.inj hkey, hdec, hnoted]
            exact hk hf key rfl

theorem orderly_addPosting (h : Orderly kin ti ci) (oid : Nat) (f : String) (k : Option Key)
    (hk : f ∈ ti.sortedFields → ∀ key, k = some key →
      key.ordersIn (kin f) (ci.decimals f key) = true) :
    Orderly kin ti (ci.addPosting oid f k) := by
  refine ⟨h.listFields, h.sortedFields, fun g hg j hj => ?_, h.run⟩
  rw [posting?_addPosting] at hj
  split at hj
  · rename_i hc
    rw [hc.1] at hg ⊢
    exact hk hg j hc.2.1.symm
  · exact h.keys g hg j hj

theorem orderly_holdKey (h : Orderly kin ti ci) (oid : Nat) (f : String) (k : Option Key) :
    Orderly kin ti (ci.holdKey oid f k) := by
  cases k with
  | none => exact h
  | some key => exact ⟨h.listFields, h.sortedFields, h.keys, h.run⟩

theorem orderly_addKey (h : Orderly kin ti ci) (oid : Nat) (f : String) (decimalAt : Key → Bool)
    (k : Option Key) (hk : f ∈ ti.sortedFields → ∀ key, k = some key →
      key.ordersIn (kin f) (decimalAt key) = true) :
    ∃ ci', addKey oid f decimalAt k ci = .ok () ci' ∧ Orderly kin ti ci' := by
  rw [addKey, bind_run_ok (get_run ci)]
  by_cases hc : ci.eq.contains f = true
  · rw [if_pos hc]
    rcases orderly_enterNewKey h f decimalAt k hk with ⟨c₁, hrun, h₁, hk₁⟩
    refine ⟨_, ?_, orderly_holdKey (orderly_addPosting h₁ oid f k hk₁) oid f k⟩
    rw [bind_run_ok hrun]
    rfl
  · rw [if_neg hc]
    exact ⟨_, rfl, orderly_holdKey h oid f k⟩

theorem orderly_addKeys (oid : Nat) (f : String) (decimalAt : Key → Bool)
    (keys : List (Option Key)) :
    ∀ ci : ClassIndexes, Orderly kin ti ci →
      (f ∈ ti.sortedFields → ∀ key, some key ∈ keys →
        key.ordersIn (kin f) (decimalAt key) = true) →
      ∃ ci', keys.forM (addKey oid f decimalAt) ci = .ok () ci' ∧ Orderly kin ti ci' := by
  induction keys with
  | nil => exact fun ci h _ => ⟨ci, rfl, h⟩
  | cons k keys ih =>
      intro ci h hk
      rcases orderly_addKey h oid f decimalAt k (fun hf key hkey => hk hf key (by simp [hkey])) with
        ⟨c₁, hrun, h₁⟩
      rcases ih c₁ h₁ (fun hf key hkey => hk hf key (List.mem_cons_of_mem k hkey)) with
        ⟨c₂, hruns, h₂⟩
      exact ⟨c₂, by rw [forM_cons_run, bind_run_ok hrun]; exact hruns, h₂⟩

theorem orderly_indexFields (oid : Nat) (values : List (String × Val ρ))
    (keysOf : String → List (Option Key)) :
    ∀ ci : ClassIndexes, Orderly kin ti ci →
      (∀ e ∈ values, e.2.indexKeys (ti.listFields.contains e.1) = .ok (keysOf e.1)) →
      (∀ e ∈ values, e.1 ∈ ti.sortedFields → ∀ key, some key ∈ keysOf e.1 →
        key.ordersIn (kin e.1) (e.2.decimalAt key) = true) →
      ∃ ci' indexed, values.mapM (indexEntry oid) ci = .ok indexed ci' ∧ Orderly kin ti ci' := by
  induction values with
  | nil => exact fun ci h _ _ => ⟨ci, [], rfl, h⟩
  | cons e values ih =>
      intro ci h hkeys hord
      have hlist : ci.listFields.contains e.1 = ti.listFields.contains e.1 := by
        rw [Bool.eq_iff_iff, List.contains_iff_mem, List.contains_iff_mem]
        exact h.listFields e.1
      rcases orderly_addKeys oid e.1 e.2.decimalAt (keysOf e.1) ci h
        (hord e List.mem_cons_self) with ⟨c₁, hrun, h₁⟩
      have hone : indexEntry oid e ci = .ok (e.1, keysOf e.1) c₁ := by
        have hfield : indexField oid e.1 e.2 ci = .ok (keysOf e.1) c₁ := by
          rw [indexField, bind_run_ok (get_run ci), hlist, hkeys e List.mem_cons_self]
          change ((keysOf e.1).forM (addKey oid e.1 e.2.decimalAt) >>= fun _ => pure (keysOf e.1)) ci = _
          rw [bind_run_ok hrun]
          rfl
        rw [indexEntry, bind_run_ok hfield]
        rfl
      rcases ih c₁ h₁ (fun d hd => hkeys d (List.mem_cons_of_mem e hd))
        (fun d hd => hord d (List.mem_cons_of_mem e hd)) with
        ⟨c₂, indexed, hruns, h₂⟩
      refine ⟨c₂, (e.1, keysOf e.1) :: indexed, ?_, h₂⟩
      rw [List.mapM_cons, bind_run_ok hone, bind_run_ok hruns]
      rfl

theorem orderly_forget (h : Orderly kin ti ci) (oid : Nat) :
    Orderly kin ti (ci.withLastValues.forget oid) := by
  have hmem : ∀ c : ClassIndexes, Orderly kin ti c → Orderly kin ti (c.forget oid) := by
    intro c hc
    rw [forget]
    split
    · refine ⟨hc.listFields, hc.sortedFields, fun f hf k hk => hc.keys f hf k ?_, hc.run⟩
      have hk' : ((c.unindex oid _).posting? f (some k)).isSome := hk
      rwa [posting?_unindex, Option.isSome_map] at hk'
    · exact hc
  refine hmem _ ?_
  rw [withLastValues]
  split <;> exact ⟨h.listFields, h.sortedFields, h.keys, h.run⟩

/-- A write that conforms enters an orderly index, whatever order its fields
    come in. -/
theorem orderly_insert (h : Orderly kin ti ci) (oid : Nat) {fields : List String}
    (hfields : ∀ f, f ∈ fields ↔ f ∈ ti.maintainedFields) (row : String → Val ρ)
    (hrow : Sortable kin ti row) :
    ∃ ci', insert oid (entryIn fields row) ci = .ok () ci' ∧ Orderly kin ti ci' := by
  have h₀ := orderly_forget h oid
  rcases orderly_indexFields oid (entryIn fields row) (rowKeys ti row)
    ((ci.withLastValues.forget oid).setExtent
      (Insert.insert oid (ci.withLastValues.forget oid).extent))
    ⟨h₀.listFields, h₀.sortedFields, h₀.keys, h₀.run⟩ (fun e he => by
      rcases List.mem_map.mp he with ⟨f, hf, rfl⟩
      exact hrow.keyed f ((hfields f).mp hf)) (fun e he => by
      rcases List.mem_map.mp he with ⟨f, -, rfl⟩
      exact hrow.ordered f) with ⟨c₁, indexed, hrun, h₁⟩
  refine ⟨c₁.setMemory oid (snapshot indexed), ?_, h₁.listFields, h₁.sortedFields, h₁.keys, h₁.run⟩
  rw [insert, bind_run_ok (modify_run _ ci), bind_run_ok (modify_run _ _), bind_run_ok hrun]
  rfl

theorem orderly_remove (h : Orderly kin ti ci) (oid : Nat) : Orderly kin ti (ci.remove oid) := by
  have h₀ := orderly_forget h oid
  exact ⟨h₀.listFields, h₀.sortedFields, h₀.keys, h₀.run⟩

/-- Sorting the runs never raises on comparable keys. -/
theorem finalizeBuild_answers (hfields : ∀ f, f ∈ ci.sortedFields ↔ f ∈ ti.sortedFields)
    (hlist : ∀ f, f ∈ ci.listFields ↔ f ∈ ti.listFields)
    (hkeys : ∀ f ∈ ti.sortedFields, ∀ k, (ci.posting? f (some k)).isSome →
      k.ordersIn (kin f) (ci.decimals f k) = true) :
    ∃ ci', finalizeBuild ci = .ok () ci' ∧ Orderly kin ti ci' := by
  -- The keys of a field order with one another, so its run is sorted.
  have hsorted : ∀ f ∈ ci.sortedFields,
      ∃ run, buildRun f (ci.decimals f) (ci.distinctKeys f) = .ok run ∧
      ∀ k ∈ run, k.ordersIn (kin f) (ci.decimals f k) = true := by
    intro f hf
    have hall : ∀ k ∈ ci.distinctKeys f, k.ordersIn (kin f) (ci.decimals f k) = true :=
      fun k hk => hkeys f ((hfields f).mp hf) k ((mem_distinctKeys ci f k).mp hk)
    have hans : ∀ a ∈ ci.distinctKeys f, ∀ b ∈ ci.distinctKeys f,
        ∃ r, Key.ltOf (ci.decimals f) a b = .ok r :=
      fun a ha b hb => Key.ltOf_answers (hall a ha) (hall b hb)
    rcases sortedRun_answers hans with ⟨run, hrun, hmem⟩
    exact ⟨run, by rw [buildRun, hrun], fun k hk => hall k (hmem k hk)⟩
  -- The runs the build arrives at.
  let sorted : String → List Key := fun f =>
    (buildRun f (ci.decimals f) (ci.distinctKeys f)).toOption.getD []
  have hsort : ∀ f ∈ ci.sortedFields,
      buildRun f (ci.decimals f) (ci.distinctKeys f) = .ok (sorted f) ∧
      ∀ k ∈ sorted f, k.ordersIn (kin f) (ci.decimals f k) = true := by
    intro f hf
    rcases hsorted f hf with ⟨run, hrun, hall⟩
    have heq : sorted f = run := by
      simp only [sorted, hrun]
      rfl
    rw [heq]
    exact ⟨hrun, hall⟩
  rcases finalizeRuns_spec ci.distinctKeys sorted ci.decimals ci.sortedFields (fun f hf => (hsort f hf).1)
    ci with ⟨runs, hruns, hget⟩
  refine ⟨{ ci with sortedKeys := runs, building := false }, ?_, hlist, hfields, hkeys,
    fun f hf k hk => ?_⟩
  · rw [finalizeBuild, bind_run_ok (get_run ci), bind_run_ok hruns]
    rfl
  · have hk' : k ∈ runs.getD f [] := hk
    rw [hget, if_pos ((hfields f).mpr hf)] at hk'
    exact (hsort f ((hfields f).mpr hf)).2 k hk'

section Making

open ClassIndexes

variable {kin : String → Kin} {ti : TypeInfo} {ci : ClassIndexes}

theorem orderly_bulkInit (kin : String → Kin) (ti : TypeInfo) :
    Orderly kin ti (bulkInit ti) := by
  refine ⟨fun f => Iff.rfl, fun f => Iff.rfl, fun f _ k hk => ?_, fun f hf k hk => ?_⟩
  · rw [posting?, bulkInit, ClassIndexes.init, Dict.get?_ofList_const] at hk
    split at hk <;> simp [Dict.get?_empty] at hk
  · rw [run, bulkInit, ClassIndexes.init, Dict.getD, Dict.get?_ofList_const] at hk
    split at hk <;> simp at hk

/-- The records of one shape enter an orderly index. -/
theorem orderly_shape (scan : Nat → List StoredRecord) (shape : Nat × List String)
    (hadm : ti.maintainedFields = [] ∨
      ∃ c, schemaEvolutionFill ti shape.2 = .ok c ∧ (c = none ∨ scan shape.1 = []))
    (hrows : ∀ rec ∈ scan shape.1, Sortable kin ti (recordRow ti shape.2 rec.payload))
    (h : Orderly kin ti ci) :
    ∃ ci', indexShape ti scan shape ci = .ok () ci' ∧ Orderly kin ti ci' := by
  unfold indexShape
  by_cases hno : ti.maintainedFields = []
  · rw [if_pos (by rw [hno]; rfl)]
    exact forM_run_ok (fun rec _ ci hc =>
      ⟨_, rfl, hc.listFields, hc.sortedFields, hc.keys, hc.run⟩) h
  · rw [if_neg (by rw [List.isEmpty_iff]; exact hno)]
    rcases hadm.resolve_left hno with ⟨c, hfill, hc⟩
    rw [bind_run_ok (ofExcept_run_ok hfill ci)]
    rcases hc with rfl | hempty
    · exact forM_run_ok (fun rec hrec ci hc => orderly_insert hc rec.oid
        (mem_scanOrder ti shape.2) _ (hrows rec hrec)) h
    · rw [hempty]
      exact ⟨ci, rfl, h⟩

/-- A build over rows that keep to their kinds never raises. -/
theorem orderly_build (lineage : Lineage) (scan : Nat → List StoredRecord)
    (hadm : Admits ti lineage scan)
    (hrows : ∀ e ∈ scannedRows ti lineage scan, Sortable kin ti e.2) :
    ∃ ci, buildClassIndexes ti lineage scan = .ok ci ∧ Orderly kin ti ci := by
  have hshapes : ∀ shape ∈ lineage, ∀ ci : ClassIndexes, Orderly kin ti ci →
      ∃ ci', indexShape ti scan shape ci = .ok () ci' ∧ Orderly kin ti ci' := by
    intro shape hshape ci hci
    refine orderly_shape scan shape (hadm.imp_right fun ha => ha shape hshape) ?_ hci
    intro rec hrec
    refine hrows (rec.oid, recordRow ti shape.2 rec.payload) ?_
    exact List.mem_flatMap.mpr ⟨shape, hshape, List.mem_map.mpr ⟨rec, hrec, rfl⟩⟩
  rcases forM_run_ok hshapes (orderly_bulkInit kin ti) with ⟨c₁, hrun, h₁⟩
  rcases finalizeBuild_answers h₁.sortedFields h₁.listFields h₁.keys with ⟨c₂, hfin, h₂⟩
  refine ⟨c₂, ?_, h₂⟩
  unfold buildClassIndexes buildProgram
  rw [bind_run_ok hrun, hfin]

end Making

end ClassIndexes

/-- The keys of a cached index keep to their kinds. -/
def IndexBlob.Orderly (kin : String → Kin) (blob : IndexBlob) : Prop :=
  ∀ f ∈ blob.sortedFields, ∀ k, ((ClassIndexes.ofBlob blob).posting? f (some k)).isSome →
    k.ordersIn (kin f) (blob.decimals f k) = true

namespace ClassIndexes

variable {kin : String → Kin} {ti : TypeInfo} {ci : ClassIndexes}

/-- Recovering an orderly blob never raises; under other markers it is not
    used. -/
theorem orderly_load (ti : TypeInfo) {blob : IndexBlob} (h : blob.Orderly kin) :
    ∃ r, load blob ti = .ok r ∧ ∀ ci, r = some ci → Orderly kin ti ci := by
  rw [load]
  by_cases hmatch : blobMatches blob ti = true
  · rw [if_pos hmatch]
    unfold blobMatches at hmatch
    simp only [Bool.and_eq_true, List.isPerm_iff] at hmatch
    rcases hmatch with ⟨⟨-, hlist⟩, hsorted⟩
    have hfields : ∀ f, f ∈ (ofBlob blob).sortedFields ↔ f ∈ ti.sortedFields := fun f =>
      hsorted.mem_iff
    have hkeys : ∀ f ∈ ti.sortedFields, ∀ k, ((ofBlob blob).posting? f (some k)).isSome →
        k.ordersIn (kin f) ((ofBlob blob).decimals f k) = true := fun f hf k hk => h f (hsorted.mem_iff.mpr hf) k hk
    rcases finalizeBuild_answers hfields (fun f => hlist.mem_iff) hkeys with ⟨c, hrun, hc⟩
    rw [hrun]
    exact ⟨some c, rfl, fun ci heq => Option.some.inj heq ▸ hc⟩
  · rw [if_neg hmatch]
    exact ⟨none, rfl, fun ci heq => nomatch heq⟩

theorem orderly_dump (h : Orderly kin ti ci) : ci.dump.Orderly kin :=
  fun f hf k hk => h.keys f ((h.sortedFields f).mp hf) k hk

end ClassIndexes

end DataCrystal
