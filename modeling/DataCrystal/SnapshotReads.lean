import DataCrystal.Fenced
import DataCrystal.StoreReads

/-!
# Reads of a Snapshot

A handle on a snapshot belongs to one principal. It plans a condition over
indexes built from the pinned view, takes the readable OIDs out of the candidates
and shows views. What it evaluates a condition on is a view, in which a list has
become a tuple, so the operands of what the planner leaves over are frozen like
the values of the view, while the planner is given them as they were.

`all` needs no index when the class is not protected and no order is asked for.
It streams the records shape by shape, so its listing is not by OID, and it stops
at the record that fills the window. A window of no rows from the start is filled
before the first record is looked at, and the stop comes after it: `all` then
shows one row.

## Main definitions

* `viewCondition`: A condition on the views of a snapshot.
* `Snapshot.query`, `Snapshot.count`, `Snapshot.allWindow`: The reads.
* `Snapshot.viewOf`: What is shown of an OID.

## Theorems

* `plan_viewCondition`: Frozen operands are planned alike.
* `streamWindow_eq`: A stream that stops early is the window of the whole.
* `views_listing`: The reads of a snapshot.
* `Watched.snapshot_windows`: The reads of a snapshot of any store a run comes to.
-/

namespace DataCrystal

open ClassIndexes

/-- A test on the value of a view. -/
def Test.viewed : Test Token → Test Token
  | .eq v => .eq v.freeze
  | .ne v => .ne v.freeze
  | .ord op v => .ord op v.freeze
  | .isIn vs => .isIn (vs.map Val.freeze)
  | .contains needle => .contains needle
  | .startswith needle => .startswith needle

/-- A condition on the views of a snapshot. -/
def viewCondition : Cond Token → Cond Token
  | .pred f t => .pred f t.viewed
  | .and parts => .and (viewParts parts)
  | .or parts => .or (viewParts parts)
  | .not part => .not (viewCondition part)
where
  viewParts : List (Cond Token) → List (Cond Token)
    | [] => []
    | c :: cs => viewCondition c :: viewParts cs

/-- The value a view shows under a name. -/
def EntityView.value (v : EntityView) (f : String) : Val Token := (v.values.get? f).getD .none

/-- The views on which a residual holds. -/
def keptViews (residual : Option (Cond Token)) : List EntityView → Except ValueErr (List EntityView)
  | [] => .ok []
  | v :: vs => do
    let keep ← holdsOn residual v.value
    let rest ← keptViews residual vs
    .ok (if keep then v :: rest else rest)

namespace Snapshot

variable (types : Types) (s : Snapshot) (p : Principal) (c : String)

/-- The indexes of a class at the watermark. -/
def classIndexes : Except (ReadErr SnapshotErr) ClassIndexes :=
  (buildClassIndexes (types.info c) (s.view.lineageOf c) s.view.scanType).mapError fun e =>
    .source (.index e)

/-- The views of OIDs that are in an index. -/
def viewsFor (oids : List Nat) : Except (ReadErr SnapshotErr) (List EntityView) :=
  (oids.mapM (s.viewFor types)).mapError .source

/-- The views of some OIDs on which a condition on views holds. -/
def selectKept (residual : Option (Cond Token)) (oids : List Nat) :
    Except (ReadErr SnapshotErr) (List EntityView) := do
  let views ← s.viewsFor types oids
  comparing (keptViews residual views)

/-- The views of some OIDs on which the residual of a plan holds. -/
def selectViews (residual : Option (Cond Token)) (oids : List Nat) :
    Except (ReadErr SnapshotErr) (List EntityView) :=
  s.selectKept types (residual.map viewCondition) oids

/-- The views a condition matches, in a window. -/
def query (cond : Option (Cond Token)) (limit : Option ℤ) (offset : ℤ) (order : Option OrderBy) :
    Except (ReadErr SnapshotErr) (List EntityView) := do
  let w ← (validateWindow limit offset).mapError .query
  -- Nothing of the class was ever stored.
  if (s.view.lineageOf c).isEmpty then .ok []
  else
    let order ← (parseOrder order (types.info c)).mapError .query
    let ci ← s.classIndexes types c
    let selected ← comparing (candidates (types.info c) ci cond p)
    readWindow ci (s.selectViews types) EntityView.value selected.1 selected.2 order w

/-- The number of the views a condition matches. -/
def count (cond : Option (Cond Token)) : Except (ReadErr SnapshotErr) Nat :=
  if (s.view.lineageOf c).isEmpty then .ok 0
  else do
    let ci ← s.classIndexes types c
    countSelected (types.info c) ci p cond (s.selectViews types)

/-- No live class enforces the labels that a shape of the class carries. -/
def noLiveClassFenced : Bool :=
  (types.known c).isNone && (s.view.lineageOf c).any fun shape => shape.2.contains "_dc_owner"

/-- The records are made views of until there are `stop` of them. -/
def streamViews (stop : Option Nat) :
    List StoredRecord → List EntityView → Except SnapshotErr (List EntityView × Bool)
  | [], out => .ok (out, false)
  | rec :: recs, out => do
    let view ← s.materialize types rec
    -- Enough for the window: the scan ends here.
    if stop.any fun n => n ≤ (out ++ [view]).length then .ok (out ++ [view], true)
    else streamViews stop recs (out ++ [view])

/-- The window of the records in the order they are scanned. -/
def streamWindow (w : Window) : Except (ReadErr SnapshotErr) (List EntityView) := do
  let out ← (s.streamViews types (w.limit.map fun n => w.offset + n) (s.recordsOf c) []).mapError
    .source
  .ok (if out.2 then out.1.drop w.offset else applyWindow w out.1)

/-- The views of the extent, off the index of the class. -/
def indexedWindow (order : Option (String × Bool)) (w : Window) :
    Except (ReadErr SnapshotErr) (List EntityView) := do
  let ci ← s.classIndexes types c
  let selected ← comparing (candidates (types.info c) ci (none : Option (Cond Token)) p)
  readWindow ci (s.selectViews types) EntityView.value selected.1 selected.2 order w

/-- Every committed entity of a class, in a window. -/
def allWindow (limit : Option ℤ) (offset : ℤ) (order : Option OrderBy) :
    Except (ReadErr SnapshotErr) (List EntityView) := do
  let w ← (validateWindow limit offset).mapError .query
  -- Labels in the records and no class to enforce them: closed for all but root.
  if (types.known c).isNone && !isRoot p && s.noLiveClassFenced types c then .error (.denied c)
  else
    match types.known c, order with
    | none, some _ => .error (.noLiveClass c)
    | none, none => s.streamWindow types c w
    | some ti, some o => do
      let parsed ← (parseOrderBy o ti).mapError .query
      s.indexedWindow types p c (some parsed) w
    | some ti, none =>
      -- Without labels the records are streamed, and no index is built.
      if ti.isProtected then s.indexedWindow types p c none w else s.streamWindow types c w

end Snapshot

section Frozen

variable {v : Val Token} {ti : TypeInfo} {rows : Rows} {lost : Lost} {ci : ClassIndexes}

theorem scalarKey_freeze (v : Val Token) : v.freeze.scalarKey = v.scalarKey := by
  cases v with
  | seq kind xs => cases kind <;> rfl
  | _ => rfl

/-- Freezing keeps what is read of the items of a sequence, if it keeps what is
    read of each. -/
theorem mapM_freezeItems {m : Type → Type} [Monad m] [LawfulMonad m] {α : Type} (read : Val Token → m α)
    (hread : ∀ v, read v.freeze = read v) (xs : List (Val Token)) :
    (Val.freeze.freezeItems xs).mapM read = xs.mapM read := by
  induction xs with
  | nil => rfl
  | cons x xs ih => rw [Val.freeze.freezeItems, List.mapM_cons, List.mapM_cons, hread, ih]

theorem indexKeys_freeze (isList : Bool) (v : Val Token) :
    v.freeze.indexKeys isList = v.indexKeys isList := by
  cases v with
  | seq kind xs =>
      cases kind with
      | list =>
          cases isList with
          | true => exact mapM_freezeItems Val.scalarKey scalarKey_freeze xs
          | false => rfl
      | tuple => rfl
  | _ => cases isList <;> rfl

theorem lookupKey_freeze {key : Option (Option Key)} (h : v.lookupKey = .ok key) :
    v.freeze.lookupKey = .ok key := by
  cases v with
  | seq kind xs =>
      cases kind with
      | list => cases h
      | tuple => exact h
  | dict xs => cases h
  | _ => exact h

theorem viewParts_eq (cs : List (Cond Token)) :
    viewCondition.viewParts cs = cs.map viewCondition := by
  induction cs with
  | nil => rfl
  | cons c cs ih => rw [viewCondition.viewParts, ih, List.map_cons]

theorem tests_viewCondition (c : Cond Token) :
    (viewCondition c).tests = c.tests.map fun e => (e.1, e.2.viewed) := by
  have hall : ∀ cs : List (Cond Token),
      (∀ c ∈ cs, (viewCondition c).tests = c.tests.map fun e => (e.1, e.2.viewed)) →
      Cond.tests.testsAll (cs.map viewCondition) =
        (Cond.tests.testsAll cs).map fun e => (e.1, e.2.viewed) := by
    intro cs hcs
    induction cs with
    | nil => rfl
    | cons c cs ih =>
        rw [List.map_cons, Cond.tests.testsAll, Cond.tests.testsAll, List.map_append,
          hcs c List.mem_cons_self, ih fun d hd => hcs d (List.mem_cons_of_mem c hd)]
  induction c using Cond.induction_parts with
  | hpred f t => rfl
  | hand ps ih =>
      rw [viewCondition, viewParts_eq, Cond.tests, Cond.tests]
      exact hall ps ih
  | hor ps ih =>
      rw [viewCondition, viewParts_eq, Cond.tests, Cond.tests]
      exact hall ps ih
  | hnot c ih =>
      rw [viewCondition, Cond.tests, Cond.tests]
      exact ih

/-- What frozen operands leave of a plan. -/
def Planned.viewed (planned : Planned Token) : Planned Token :=
  (planned.1, planned.2.map viewCondition)

theorem rangeSlice_freeze (f : String) (op : OrdOp) (v : Val Token) :
    rangeSlice ci f op v.freeze = rangeSlice ci f op v := by
  cases v with
  | seq kind xs => cases kind <;> rfl
  | _ => rfl

theorem lookupAll_freeze {lookup : Val Token → Except ValueErr (Finset Nat)} {vs : List (Val Token)}
    (h : ∀ v ∈ vs, lookup v.freeze = lookup v) :
    lookupAll lookup (vs.map Val.freeze) = lookupAll lookup vs := by
  induction vs with
  | nil => rfl
  | cons v vs ih =>
      rw [List.map_cons, lookupAll, lookupAll, h v List.mem_cons_self,
        ih fun w hw => h w (List.mem_cons_of_mem v hw)]

/-- The operands that are looked up hash. -/
def Hashes (t : Test Token) : Prop :=
  (∀ v, t = .eq v → ∃ key, v.lookupKey = .ok key) ∧
    ∀ vs, t = .isIn vs → ∀ v ∈ vs, ∃ key, v.lookupKey = .ok key

theorem lookupPosting_freeze {f : String} (h : ∃ key, v.lookupKey = .ok key) :
    lookupPosting ci f v.freeze = lookupPosting ci f v := by
  rcases h with ⟨key, hkey⟩
  rw [lookupPosting, lookupPosting, lookupKey_freeze hkey, hkey]

theorem lookupHolder_freeze {f : String} (h : ∃ key, v.lookupKey = .ok key) :
    lookupHolder ci f v.freeze = lookupHolder ci f v := by
  rcases h with ⟨key, hkey⟩
  rw [lookupHolder, lookupHolder, lookupKey_freeze hkey, hkey]

theorem planEqIndexed_viewed {f : String} {t : Test Token}
    (h : ci.listFields.contains f = false → Hashes t) : planEqIndexed f t.viewed ci =
      (planEqIndexed f t ci).map fun planned => planned.map Planned.viewed := by
  by_cases hl : ci.listFields.contains f = true
  · cases t with
    | ord op v =>
        simp only [planEqIndexed, Test.viewed, hl, if_true, rangeSlice_freeze]
        split
        · cases rangeSlice ci f op v <;> rfl
        · rfl
    | _ =>
        simp only [planEqIndexed, Test.viewed, hl, if_true, planListField]
        rfl
  · have hash := h (by simpa using hl)
    cases t with
    | eq v =>
        simp only [planEqIndexed, Test.viewed, hl, if_false, Bool.false_eq_true,
          lookupPosting_freeze (hash.1 v rfl)]
        cases lookupPosting ci f v <;> rfl
    | isIn vs =>
        simp only [planEqIndexed, Test.viewed, hl, if_false, Bool.false_eq_true,
          lookupAll_freeze fun v hv => lookupPosting_freeze (hash.2 vs rfl v hv)]
        cases lookupAll (lookupPosting ci f) vs <;> rfl
    | ord op v =>
        simp only [planEqIndexed, Test.viewed, hl, if_false, Bool.false_eq_true, rangeSlice_freeze]
        split
        · cases rangeSlice ci f op v <;> rfl
        · rfl
    | _ =>
        simp only [planEqIndexed, Test.viewed, hl, if_false, Bool.false_eq_true]
        rfl

theorem planUniqueOnly_viewed {f : String} {t : Test Token} (h : Hashes t) :
    planUniqueOnly f t.viewed ci =
      (planUniqueOnly f t ci).map fun planned => planned.map Planned.viewed := by
  cases t with
  | eq v =>
      simp only [planUniqueOnly, Test.viewed, lookupHolder_freeze (h.1 v rfl)]
      cases lookupHolder ci f v <;> rfl
  | isIn vs =>
      simp only [planUniqueOnly, Test.viewed,
        lookupAll_freeze fun v hv => lookupHolder_freeze (h.2 vs rfl v hv)]
      cases lookupAll (lookupHolder ci f) vs <;> rfl
  | _ => rfl

/-- The plan of the first that answers. -/
def planOrElse (first : Except ValueErr (Option (Planned Token)))
    (rest : Except ValueErr (Planned Token)) : Except ValueErr (Planned Token) :=
  match first with
  | .error e => .error e
  | .ok (some planned) => .ok planned
  | .ok none => rest

theorem planPred_eq (f : String) (t : Test Token) (ci : ClassIndexes) : planPred f t ci =
    planOrElse (if ci.eq.contains f then planEqIndexed f t ci else .ok none)
      (planOrElse (if ci.unique.contains f then planUniqueOnly f t ci else .ok none)
        (.ok (none, some (.pred f t)))) := by
  unfold planPred
  rcases (if ci.eq.contains f then planEqIndexed f t ci else .ok none) with e | ⟨_ | planned⟩
  · rfl
  · rcases (if ci.unique.contains f then planUniqueOnly f t ci else .ok none) with
      e | ⟨_ | planned⟩ <;> rfl
  · rfl

theorem planOrElse_map (g : Planned Token → Planned Token)
    (first : Except ValueErr (Option (Planned Token))) (rest : Except ValueErr (Planned Token)) :
    planOrElse (first.map (Option.map g)) (rest.map g) = (planOrElse first rest).map g := by
  cases first with
  | error e => rfl
  | ok planned => cases planned <;> rfl

theorem planPred_viewed {f : String} {t : Test Token}
    (heq : ci.eq.contains f = true → ci.listFields.contains f = false → Hashes t)
    (hunique : ci.unique.contains f = true → Hashes t) :
    planPred f t.viewed ci = (planPred f t ci).map Planned.viewed := by
  have hfirst : (if ci.eq.contains f then planEqIndexed f t.viewed ci else .ok none) =
      (if ci.eq.contains f then planEqIndexed f t ci else .ok none).map
        (Option.map Planned.viewed) := by
    by_cases he : ci.eq.contains f = true
    · rw [if_pos he, if_pos he, planEqIndexed_viewed (heq he)]
    · rw [if_neg he, if_neg he]
      rfl
  have hsecond : (if ci.unique.contains f then planUniqueOnly f t.viewed ci else .ok none) =
      (if ci.unique.contains f then planUniqueOnly f t ci else .ok none).map
        (Option.map Planned.viewed) := by
    by_cases hu : ci.unique.contains f = true
    · rw [if_pos hu, if_pos hu, planUniqueOnly_viewed (hunique hu)]
    · rw [if_neg hu, if_neg hu]
      rfl
  rw [planPred_eq, planPred_eq, hfirst, hsecond, ← planOrElse_map, ← planOrElse_map]
  rfl

theorem joinResiduals_viewed (cs : List (Cond Token)) :
    joinResiduals (cs.map viewCondition) = (joinResiduals cs).map viewCondition := by
  cases cs with
  | nil => rfl
  | cons c cs =>
      cases cs with
      | nil => rfl
      | cons d ds =>
          simp only [List.map_cons, joinResiduals, Option.map_some, viewCondition,
            viewCondition.viewParts, viewParts_eq]

/-- A condition whose lookups hash is planned alike with frozen operands. -/
theorem plan_viewCondition (c : Cond Token) (h : ∀ e ∈ c.tests,
      (ci.eq.contains e.1 = true → ci.listFields.contains e.1 = false → Hashes e.2) ∧
        (ci.unique.contains e.1 = true → Hashes e.2)) :
    plan ci (viewCondition c) = (plan ci c).map Planned.viewed := by
  induction c using Cond.induction_parts with
  | hpred f t =>
      rcases h (f, t) List.mem_cons_self with ⟨heq, hunique⟩
      exact planPred_viewed heq hunique
  | hand ps ih =>
      -- Each part plans as before with its residual viewed, and so does their meet.
      have hall : plan.planAll ci (ps.map viewCondition) =
          (plan.planAll ci ps).map fun planned => planned.map Planned.viewed := by
        induction ps with
        | nil => rfl
        | cons c cs ihc =>
            have hone := ih c List.mem_cons_self fun e he =>
              h e (List.mem_append_left _ he)
            have hrest := ihc (fun d hd => ih d (List.mem_cons_of_mem c hd)) fun e he =>
              h e (List.mem_append_right _ he)
            rw [List.map_cons, plan.planAll, plan.planAll, hone, hrest]
            cases plan ci c with
            | error e => rfl
            | ok planned =>
                cases plan.planAll ci cs <;> rfl
      rw [viewCondition, viewParts_eq, plan, plan, hall]
      cases plan.planAll ci ps with
      | error e => rfl
      | ok planned =>
          have hbitmaps : (planned.map Planned.viewed).map Prod.fst = planned.map Prod.fst := by
            rw [List.map_map]
            rfl
          have hresiduals : (planned.map Planned.viewed).filterMap Prod.snd =
              (planned.filterMap Prod.snd).map viewCondition := by
            rw [List.filterMap_map, List.map_filterMap]
            rfl
          simp only [Except.map, hbitmaps, hresiduals, joinResiduals_viewed, Planned.viewed]
  | hor ps ih =>
      -- A branch counts by its bitmap alone: a residual makes the whole union residual.
      have hall : plan.planBranches ci (ps.map viewCondition) = plan.planBranches ci ps := by
        induction ps with
        | nil => rfl
        | cons c cs ihc =>
            have hone := ih c List.mem_cons_self fun e he =>
              h e (List.mem_append_left _ he)
            have hrest := ihc (fun d hd => ih d (List.mem_cons_of_mem c hd)) fun e he =>
              h e (List.mem_append_right _ he)
            rw [List.map_cons, plan.planBranches, plan.planBranches, hone, hrest]
            cases plan ci c with
            | error e => rfl
            | ok planned =>
                rcases planned with ⟨_ | bm, _ | r⟩ <;> rfl
      rw [viewCondition, viewParts_eq, plan, plan, hall]
      cases plan.planBranches ci ps with
      | error e => rfl
      | ok bms =>
          cases bms with
          | some bms => rfl
          | none => simp only [Except.map, Planned.viewed, Option.map_some, viewCondition, viewParts_eq]
  | hnot c ih => rfl

/-- The candidates of a condition are those of its frozen twin, and what is left
    to evaluate is frozen. -/
theorem candidates_viewed (hrep : Represents ti rows lost ci) {fam : String → Family}
    {cond : Option (Cond Token)} (hadm : ∀ d, cond = some d → Admissible fam ti d.tests)
    (p : Principal) : candidates ti ci (cond.map viewCondition) p =
      (candidates ti ci cond p).map fun e => (e.1, e.2.map viewCondition) := by
  have hplan : planOf ci (cond.map viewCondition) = (planOf ci cond).map Planned.viewed := by
    cases cond with
    | none => rfl
    | some d =>
        have hd := hadm d rfl
        refine plan_viewCondition d fun e he => ⟨fun heq hl => ?_, fun hu => ?_⟩
        · have hf : e.1 ∈ ti.maintainedFields := (ti.mem_maintainedFields _).mpr
            (Or.inl ((hrep.eqKeys _).mp ((Dict.contains_iff _ _).mp heq)))
          have hno : e.1 ∉ ti.listFields := by
            rw [hrep.listContains] at hl
            simpa using hl
          exact ⟨hd.hashable e he hf hno, hd.allHashable e he hf hno⟩
        · have huf := (hrep.uniqueKeys _).mp ((Dict.contains_iff _ _).mp hu)
          have hf : e.1 ∈ ti.maintainedFields := (ti.mem_maintainedFields _).mpr (Or.inr huf)
          have hno := ti.not_list_of_unique huf
          exact ⟨hd.hashable e he hf hno, hd.allHashable e he hf hno⟩
  unfold candidates
  rw [hplan]
  cases planOf ci cond with
  | error e => rfl
  | ok planned =>
      simp only [Except.map, Bind.bind, Except.bind, Planned.viewed]
      split
      · cases readableBitmap p ci with
        | error e => rfl
        | ok readable => cases readable <;> rfl
      · rfl

end Frozen

namespace Store

/-- The snapshot of what is committed. -/
def snapshot (s : Store) : Snapshot := ⟨s.backend⟩

/-- The value of every field of the row of an OID, as a snapshot shows it. -/
def shownView (s : Store) (ti : TypeInfo) (oid : Nat) (f : String) : Val Token :=
  (s.rawView ti oid f).freeze

/-- The rows of a class that a condition keeps on the views and a principal may
    read. -/
def shownMatching (types : Types) (s : Store) (p : Principal) (c : String)
    (cond : Option (Cond Token)) : Nat → Prop :=
  Matching (types.info c) (s.backend.classRows (types.info c) c) noneLost
    (s.shownView (types.info c)) (s.labelsOf (types.info c)) p (cond.map viewCondition)

/-- The store with the shapes that are durable. -/
def committed (s : Store) : Store := { s with typeRows := s.backend.types }

end Store

/-- What a snapshot shows of an OID. -/
def Snapshot.viewOf (types : Types) (s : Snapshot) (oid : Nat) : EntityView :=
  match s.viewFor types oid with
  | .ok v => v
  | .error _ => ⟨oid, "", Dict.empty⟩

section Views

open Store

variable {types : Types} {kind : Nat → String} {s : Store} {ti : TypeInfo} {c : String}
  {fam : String → String → Family} {ci : ClassIndexes} {rec : StoredRecord}

theorem info_of_known (h : types.known c = some ti) : types.info c = ti := by
  unfold Types.known at h
  unfold Types.info
  by_cases hroot : c = rootCls
  · rw [if_pos hroot] at h ⊢
    exact Option.some.inj h
  · rw [if_neg hroot] at h ⊢
    by_cases hactor : c = actorCls
    · rw [if_pos hactor] at h ⊢
      exact Option.some.inj h
    · rw [if_neg hactor] at h ⊢
      rw [h, Option.getD_some]

/-- A plan reads nothing under the name of no field. -/
theorem planRow_outside {persisted : List String} {payload : List (Val Token)}
    {plan : List (FieldSpec × Val Token)} (h : hydrationPlan ti persisted payload = .ok plan)
    {f : String} (hf : f ∉ ti.fieldNames) : planRow plan f = .none := by
  have hspecs : plan.map Prod.fst = ti.specs.map id := except_mapM_map (fun spec e he => by
    cases hv : hydrationValue ti persisted payload spec.name with
    | error e' =>
        rw [hv] at he
        cases he
    | ok v =>
        rw [hv] at he
        cases he
        rfl) h
  rw [planRow, List.find?_eq_none.mpr]
  · rfl
  · intro e he hname
    refine hf (List.mem_map.mpr ⟨e.1, ?_, of_decide_eq_true hname⟩)
    rw [List.map_id] at hspecs
    rw [← hspecs]
    exact List.mem_map_of_mem he

/-- The value a payload has under a name of its shape. -/
theorem get?_byName {names : List String} {payload : Payload} (hnd : names.Nodup)
    (hlen : names.length = payload.length) {f : String} (hf : f ∈ names) :
    (Snapshot.byName names payload).get? f = some (persistedValue names payload f) := by
  have hlt : names.idxOf f < payload.length := hlen ▸ List.idxOf_lt_length_of_mem hf
  have hfst : (names.zip payload).map Prod.fst = names := List.map_fst_zip hlen.le
  rw [Snapshot.byName, Dict.get?_ofList_of_nodup _ (by rw [hfst]; exact hnd)]
  refine List.mem_iff_getElem.mpr ⟨names.idxOf f, ?_, ?_⟩
  · rw [List.length_zip, hlen, min_self]
    exact hlt
  · rw [List.getElem_zip, List.getElem_idxOf, persistedValue, List.getD_eq_getElem?_getD,
      List.getElem?_eq_getElem hlt, Option.getD_some]

/-- The value a view has is the frozen value of the row. -/
theorem viewValue_row {names : List String} {payload : Payload} (hknown : types.known c = some ti)
    (hnd : names.Nodup) (hlen : names.length = payload.length) {f : String}
    (hf : f ∈ ti.fieldNames) : (Snapshot.viewValue types c names payload f).getD .none =
      (recordRow ti names payload f).freeze := by
  rw [Snapshot.viewValue, hknown, recordRow]
  simp only [if_pos hf]
  by_cases hp : f ∈ names
  · rw [get?_byName hnd hlen hp, if_pos (by simpa using hp)]
    rfl
  · rw [(Snapshot.byName_eq_none hlen).mpr hp, if_neg (by simpa using hp), Option.none_or]
    cases ti.fill (ρ := Token) f <;> rfl

/-- The view of a record. -/
theorem viewFor_row (hs : StorageOk kind s) (h : s.backend.Filing) (hnamed : s.backend.Named)
    (hknown : (types.known c).isSome) (hdec : s.Decodes types c) (hrec : s.backend.RecordOf c rec) :
    s.snapshot.viewFor types rec.oid = .ok (s.snapshot.viewOf types rec.oid) ∧
      (s.snapshot.viewOf types rec.oid).oid = rec.oid ∧
      (s.snapshot.viewOf types rec.oid).value = s.shownView (types.info c) rec.oid := by
  rcases Option.isSome_iff_exists.mp hknown with ⟨ti, hti⟩
  have hinfo := info_of_known hti
  have hfiled := h.filedAs hrec
  have hview : s.snapshot.viewFor types rec.oid = s.snapshot.materialize types rec :=
    Snapshot.viewFor_of_record hrec.1
  -- The fields the shape lacks have a fill, so the view is made.
  have hmade : ∃ v, s.snapshot.materialize types rec = .ok v := by
    refine (Snapshot.materialize_ok_iff h hfiled).mpr fun ti' hti' f hf hno => ?_
    rw [hti, Option.some.injEq] at hti'
    rw [← hti', ← hinfo] at hf ⊢
    exact hdec rec hrec f hf hno
  rcases hmade with ⟨v, hv⟩
  rcases Snapshot.materialize_spec (s := s.snapshot) h hfiled hv with ⟨hoid, -, hvalues⟩
  have hshown : s.snapshot.viewOf types rec.oid = v := by
    rw [Snapshot.viewOf, hview, hv]
  rw [hshown, hview, hv]
  refine ⟨rfl, hoid, ?_⟩
  funext f
  rw [EntityView.value, hvalues, shownView]
  -- A live field: the view and the row decode it alike.
  by_cases hf : f ∈ (types.info c).fieldNames
  · rw [(rawRow_ok hs hdec hrec).2 f hf, Backend.rowOf, hinfo]
    exact viewValue_row hti (hnamed _ _ hrec.1) hfiled.2 (hinfo ▸ hf)
  · -- Neither the view nor the row has the name.
    have hraw : s.rawView (types.info c) rec.oid f = .none := by
      have hshape := (hs.shape hrec.1).1
      rcases planRow_spec rec.payload (hdec rec hrec) with ⟨plan, hplan, -⟩
      rw [rawView, rawRow, hrec.1]
      simp only [hshape, hplan, Except.mapError, Except.map]
      exact planRow_outside hplan hf
    rw [hraw, Snapshot.viewValue, hti]
    simp only [if_neg (hinfo ▸ hf)]
    rfl

/-- The views on which a residual holds that answers on each of them. -/
theorem keptViews_ok {residual : Option (Cond Token)} {views : List EntityView}
    (h : ∀ v ∈ views, ∀ d, residual = some d → ∃ b, d.evaluate v.value = .ok b) :
    keptViews residual views = .ok (views.filter fun v => passes residual v.value) := by
  induction views with
  | nil => rfl
  | cons v vs ih =>
      rw [keptViews, holdsOn_ok fun d hd => h v List.mem_cons_self d hd,
        ih fun w hw => h w (List.mem_cons_of_mem v hw)]
      by_cases hp : passes residual v.value = true
      · simp [Bind.bind, Except.bind, hp]
      · simp [Bind.bind, Except.bind, hp]

/-- The views of some OIDs of a class. -/
theorem viewsFor_ok (hs : StorageOk kind s) (h : s.backend.Filing) (hnamed : s.backend.Named)
    (hknown : (types.known c).isSome) (hdec : s.Decodes types c) {oids : List Nat}
    (hrows : ∀ oid ∈ oids, (s.backend.classRows (types.info c) c oid).isSome) :
    s.snapshot.viewsFor types oids = .ok (oids.map (s.snapshot.viewOf types)) := by
  rw [Snapshot.viewsFor, except_mapM_ok (g := s.snapshot.viewOf types) oids fun oid hoid => ?_]
  · rfl
  · rcases record_of_row hs (hrows oid hoid) with ⟨rec, hrec, rfl, -⟩
    exact (viewFor_row hs h hnamed hknown hdec hrec).1

/-- Making views of the rows of a class and keeping those that pass. -/
theorem selectKept_selects (hs : StorageOk kind s) (h : s.backend.Filing)
    (hnamed : s.backend.Named) (hknown : (types.known c).isSome) (hdec : s.Decodes types c) :
    Selects (s.backend.classRows (types.info c) c) (s.shownView (types.info c))
      (s.snapshot.viewOf types) (s.snapshot.selectKept types) := by
  intro residual oids hrows hres
  have hvalue : ∀ oid ∈ oids, (s.snapshot.viewOf types oid).value =
      s.shownView (types.info c) oid := by
    intro oid hoid
    rcases record_of_row hs (hrows oid hoid) with ⟨rec, hrec, rfl, -⟩
    exact (viewFor_row hs h hnamed hknown hdec hrec).2.2
  have hevaluates : ∀ v ∈ oids.map (s.snapshot.viewOf types), ∀ d, residual = some d →
      ∃ b, d.evaluate v.value = .ok b := by
    intro v hv d hd
    rcases List.mem_map.mp hv with ⟨oid, hoid, rfl⟩
    rw [hvalue oid hoid]
    exact hres d hd oid (hrows oid hoid)
  have hkept := keptViews_ok hevaluates
  have hfilter : (oids.map (s.snapshot.viewOf types)).filter (fun v => passes residual v.value) =
      (oids.filter fun oid => passes residual (s.shownView (types.info c) oid)).map
        (s.snapshot.viewOf types) := by
    rw [List.filter_map]
    refine congrArg _ (List.filter_congr fun oid hoid => ?_)
    rw [Function.comp_apply, hvalue oid hoid]
  rw [Snapshot.selectKept, viewsFor_ok hs h hnamed hknown hdec hrows]
  simp only [Bind.bind, Except.bind, hkept, comparing, Except.mapError, hfilter]

/-- The shapes that are durable are enough to read the records with. -/
theorem storageOk_committed (h : StorageOk kind s) : StorageOk kind s.committed :=
  { h with
    rowsKnown := fun _ hrow => hrow
    rowsUnique := fun row hrow row' hrow' =>
      h.rowsUnique row (h.rowsKnown row hrow) row' (h.rowsKnown row' hrow')
    rowsBelow := fun row hrow => h.rowsBelow row (h.rowsKnown row hrow) }

/-- The index a snapshot makes of a class stands for the rows of the class. -/
theorem classIndexes_stands (hfam : ∀ c f, fam c f ≠ .nan) (hs : StorageOk kind s)
    (ht : s.Tidy (Kin.ofFamilies fam) types) (hin : s.InStep) {P : String → Prop} (hidx : s.Indexed P fam types) :
    ∃ ci, s.snapshot.classIndexes types c = .ok ci ∧
      IndexManager.StandsFor fam types s.backend c ci := by
  have hr : IndexManager.Rebuildable fam types s.committed := by
    refine ⟨hfam, hin.stored, fun c => ?_, hidx.conform, hidx.distinct⟩
    refine (ht.shapes c).imp_right fun hshapes shape hshape => hshapes shape ?_
    rcases List.mem_map.mp hshape with ⟨row, hrow, rfl⟩
    rw [List.mem_filter] at hrow
    exact List.mem_map_of_mem (List.mem_filter.mpr ⟨hs.rowsKnown row hrow.1, hrow.2⟩)
  rcases hr.build (storageOk_committed hs) c with ⟨ci, hbuild, hstands⟩
  refine ⟨ci, ?_, hstands⟩
  rw [Snapshot.classIndexes]
  have hsame : buildClassIndexes (types.info c) (s.snapshot.view.lineageOf c)
      s.snapshot.view.scanType = .ok ci := hbuild
  rw [hsame]
  rfl

end Views

/-- Frozen operands hash and compare where they did before. -/
theorem Admissible.viewed {fam : String → Family} {ti : TypeInfo} {c : Cond Token}
    (h : Admissible fam ti c.tests) : Admissible fam ti (viewCondition c).tests := by
  rw [tests_viewCondition]
  refine ⟨fun e he hf hl v hv => ?_, fun e he hf hl vs hvs v hv => ?_, fun e he hf op v hv => ?_⟩
  · rcases List.mem_map.mp he with ⟨⟨f, t⟩, ht, rfl⟩
    cases t with
    | eq w =>
        cases hv
        rcases h.hashable _ ht hf hl w rfl with ⟨key, hkey⟩
        exact ⟨key, lookupKey_freeze hkey⟩
    | _ => cases hv
  · rcases List.mem_map.mp he with ⟨⟨f, t⟩, ht, rfl⟩
    cases t with
    | isIn ws =>
        cases hvs
        rcases List.mem_map.mp hv with ⟨w, hw, rfl⟩
        rcases h.allHashable _ ht hf hl ws rfl w hw with ⟨key, hkey⟩
        exact ⟨key, lookupKey_freeze hkey⟩
    | _ => cases hvs
  · rcases List.mem_map.mp he with ⟨⟨f, t⟩, ht, rfl⟩
    cases t with
    | ord op w =>
        cases hv
        rcases h.comparable _ ht hf op w rfl with rfl | ⟨s, rfl, hfam⟩
        · exact Or.inl rfl
        · exact Or.inr ⟨s, rfl, hfam⟩
    | _ => cases hv

namespace Store

variable {types : Types} {kind : Nat → String} {s : Store} {p : Principal} {c : String}
  {fam : String → Family} {cond : Option (Cond Token)} {order : Option (String × Bool)}
  {fm : Family} {ci : ClassIndexes}

/-- What a read of the snapshot needs of the class and of what it is asked: the
    class is there and can read the records, the operands of the condition hash
    and compare, on views where they are evaluated, the values of the order
    compare, and so do the keys of its field. -/
structure Viewable (fam : String → Family) (types : Types) (s : Store) (p : Principal) (c : String)
    (cond : Option (Cond Token)) (order : Option (String × Bool)) (fm : Family) : Prop where
  known : (types.known c).isSome
  floor : (types.info c).isProtected = true → fam "_dc_read_floor" = .number
  decodes : s.Decodes types c
  admissible : ∀ d, cond = some d → Admissible fam (types.info c) d.tests
  answers : ∀ d, cond = some d → ∀ oid, (s.backend.classRows (types.info c) c oid).isSome →
    (viewCondition d).Answers (s.shownView (types.info c) oid)
  orders : Orders order (s.shownView (types.info c)) (s.shownMatching types p c cond) fm
  scalar : ∀ o, order = some o → o.1 ∉ (types.info c).listFields
  comparable : ∀ ci, s.snapshot.classIndexes types c = .ok ci → ∀ o, order = some o →
    o.1 ∈ (types.info c).eqIndexFields → Comparable ci o.1 fm

theorem Viewable.evaluable (h : s.Viewable fam types p c cond order fm) (d : Cond Token)
    (hd : cond.map viewCondition = some d) : Evaluable fam (types.info c)
      (s.backend.classRows (types.info c) c) (s.shownView (types.info c)) d := by
  rcases Option.map_eq_some_iff.mp hd with ⟨d', hd', rfl⟩
  exact ⟨(h.admissible d' hd').viewed, h.answers d' hd'⟩

/-- A read of views is one of views on which the frozen condition holds. -/
theorem readWindow_viewed (s : Snapshot) (candidate : Finset Nat) (residual : Option (Cond Token))
    (w : Window) : readWindow ci (s.selectViews types) EntityView.value candidate residual order w =
      readWindow ci (s.selectKept types) EntityView.value candidate (residual.map viewCondition)
        order w := by
  unfold readWindow
  rcases order with _ | ⟨f, desc⟩
  · cases residual <;> rfl
  · cases residual <;> rfl

/-- What a read of the snapshot relies on. -/
theorem readies_viewed (hready : Readies fam (types.info c)
      (s.backend.classRows (types.info c) c) noneLost (s.rawView (types.info c))
      (s.labelsOf (types.info c)) ci) :
    Readies fam (types.info c) (s.backend.classRows (types.info c) c) noneLost
      (s.shownView (types.info c)) (s.labelsOf (types.info c)) ci :=
  { hready with
    views := ⟨fun oid r hr f hf => by
      rw [shownView, indexKeys_freeze]
      exact hready.views.keyed oid r hr f hf, hready.views.noNan⟩ }

section Spec

variable (hs : StorageOk kind s) (hf : s.backend.Filing) (hn : s.backend.Named)
  (h : s.Viewable fam types p c cond order fm) (hci : s.snapshot.classIndexes types c = .ok ci)
  (hready : Readies fam (types.info c) (s.backend.classRows (types.info c) c) noneLost
    (s.shownView (types.info c)) (s.labelsOf (types.info c)) ci)

include hs hf hn h hci hready

/-- A read off the indexes of a snapshot is the window of the listing. -/
theorem viewWindow_spec (w : Window) : ∃ selected xs,
    candidates (types.info c) ci cond p = .ok selected ∧
      Listing order (s.shownView (types.info c)) (s.shownMatching types p c cond) xs ∧
      readWindow ci (s.snapshot.selectViews types) EntityView.value selected.1 selected.2 order w =
        .ok ((applyWindow w xs).map (s.snapshot.viewOf types)) := by
  rcases readWindow_spec hready h.evaluable p EntityView.oid EntityView.value
    (selectKept_selects hs hf hn h.known h.decodes)
    (fun oid hrow => by
      rcases record_of_row hs hrow with ⟨rec, hrec, rfl, -⟩
      exact (viewFor_row hs hf hn h.known h.decodes hrec).2) h.orders
    (fun o ho hin => ⟨h.scalar o ho, h.comparable ci hci o ho hin⟩) w with
    ⟨candidate, residual, xs, hcand, hlist, hread⟩
  rw [candidates_viewed hready.represents h.admissible] at hcand
  cases hsel : candidates (types.info c) ci cond p with
  | error e =>
      rw [hsel] at hcand
      cases hcand
  | ok selected =>
      rw [hsel] at hcand
      cases hcand
      refine ⟨selected, xs, rfl, hlist, ?_⟩
      rw [readWindow_viewed]
      exact hread

omit hci in
/-- What a snapshot counts is the listing. -/
theorem viewCount_spec {xs : List Nat}
    (hxs : Listing order (s.shownView (types.info c)) (s.shownMatching types p c cond) xs) :
    countSelected (types.info c) ci p cond (s.snapshot.selectViews types) = .ok xs.length := by
  have hcount := countSelected_spec hready (selectKept_selects hs hf hn h.known h.decodes)
    h.evaluable (hxs.nodup h.orders) hxs.mem
  rw [← hcount]
  cases cond with
  | none => rfl
  | some d =>
      rw [countSelected, Option.map_some, countSelected, ← Option.map_some,
        candidates_viewed hready.represents h.admissible]
      cases candidates (types.info c) ci (some d) p with
      | error e => rfl
      | ok selected =>
          rcases selected with ⟨candidate, _ | residual⟩ <;> rfl

end Spec

end Store

namespace Snapshot

section Stream

variable {types : Types} {s : Snapshot} {c : String} {g : StoredRecord → EntityView}

/-- The stream ends when it has as many views as it is to stop at. -/
theorem streamViews_stop {n : Nat} {recs : List StoredRecord}
    (h : ∀ rec ∈ recs, s.materialize types rec = .ok (g rec)) : ∀ {out : List EntityView},
    out.length < n → s.streamViews types (some n) recs out =
      .ok (if n ≤ (out ++ recs.map g).length then ((out ++ recs.map g).take n, true)
        else (out ++ recs.map g, false)) := by
  induction recs with
  | nil =>
      intro out hlt
      rw [streamViews, List.map_nil, List.append_nil, if_neg (by omega)]
  | cons rec recs ih =>
      intro out hlt
      have hsplit : out ++ (rec :: recs).map g = (out ++ [g rec]) ++ recs.map g := by simp
      have hlen : (out ++ [g rec]).length = out.length + 1 := by simp
      rw [streamViews, h rec List.mem_cons_self, hsplit]
      simp only [Bind.bind, Except.bind, Option.any_some, decide_eq_true_eq]
      by_cases hstop : n ≤ (out ++ [g rec]).length
      · have hn : n = (out ++ [g rec]).length := by omega
        rw [if_pos hstop, if_pos (by rw [List.length_append]; omega), hn, List.take_left]
      · rw [if_neg hstop]
        exact ih (fun r hr => h r (List.mem_cons_of_mem rec hr)) (by omega)

theorem streamViews_all {recs : List StoredRecord}
    (h : ∀ rec ∈ recs, s.materialize types rec = .ok (g rec)) : ∀ {out : List EntityView},
    s.streamViews types none recs out = .ok (out ++ recs.map g, false) := by
  induction recs with
  | nil =>
      intro out
      rw [streamViews, List.map_nil, List.append_nil]
  | cons rec recs ih =>
      intro out
      rw [streamViews, h rec List.mem_cons_self]
      simp only [Bind.bind, Except.bind, Option.any_none, Bool.false_eq_true, if_false]
      rw [ih fun r hr => h r (List.mem_cons_of_mem rec hr), List.map_cons, List.append_assoc,
        List.singleton_append]

/-- A stream that stops early is the window of the whole, unless the window is of
    no rows from the start. -/
theorem streamWindow_eq (h : ∀ rec ∈ s.recordsOf c, s.materialize types rec = .ok (g rec))
    {w : Window} (hw : w.limit = some 0 → 0 < w.offset) :
    s.streamWindow types c w = .ok (applyWindow w ((s.recordsOf c).map g)) := by
  rcases w with ⟨_ | n, offset⟩
  · rw [streamWindow, Option.map_none, streamViews_all h]
    rfl
  · have hpos : ([] : List EntityView).length < offset + n := by
      rcases Nat.eq_zero_or_pos n with rfl | hn
      · have hoff := hw rfl
        rw [List.length_nil]
        exact hoff
      · rw [List.length_nil]
        omega
    rw [streamWindow, Option.map_some, streamViews_stop h hpos, List.nil_append]
    by_cases hstop : offset + n ≤ ((s.recordsOf c).map g).length
    · simp only [if_pos hstop, Except.mapError, Bind.bind, Except.bind, if_true, applyWindow]
      rw [List.drop_take, Nat.add_sub_cancel_left]
    · simp only [if_neg hstop, Except.mapError, Bind.bind, Except.bind, Bool.false_eq_true,
        if_false]

/-- There the stream stops after the first row. -/
theorem streamWindow_zero (h : ∀ rec ∈ s.recordsOf c, s.materialize types rec = .ok (g rec)) :
    s.streamWindow types c ⟨some 0, 0⟩ = .ok (((s.recordsOf c).map g).take 1) := by
  rw [streamWindow]
  cases hrecs : s.recordsOf c with
  | nil => rfl
  | cons rec recs =>
      rw [hrecs] at h
      rw [Option.map_some, streamViews, h rec List.mem_cons_self]
      rfl

end Stream

section All

variable {types : Types} {s : Snapshot} {p : Principal} {c : String} {ti : TypeInfo}
  {limit : Option ℤ} {offset : ℤ} {w : Window} {order : Option OrderBy}

theorem allWindow_streamed (hti : types.known c = some ti) (hprot : ti.isProtected = false)
    (hwin : validateWindow limit offset = .ok w) :
    s.allWindow types p c limit offset none = s.streamWindow types c w := by
  rw [allWindow, hwin, hti]
  simp only [Except.mapError, Bind.bind, Except.bind, Option.isNone_some, Bool.false_and,
    Bool.false_eq_true, if_false, hprot]

theorem allWindow_indexed (hti : types.known c = some ti)
    (hwin : validateWindow limit offset = .ok w) {parsed : Option (String × Bool)}
    (hparse : parseOrder order ti = .ok parsed) (hread : order.isSome ∨ ti.isProtected = true) :
    s.allWindow types p c limit offset order = s.indexedWindow types p c parsed w := by
  rw [allWindow, hwin, hti]
  simp only [Except.mapError, Bind.bind, Except.bind, Option.isNone_some, Bool.false_and,
    Bool.false_eq_true, if_false]
  cases order with
  | some o =>
      rw [parseOrder] at hparse
      cases hp : parseOrderBy o ti with
      | error e =>
          rw [hp] at hparse
          cases hparse
      | ok o' =>
          rw [hp] at hparse
          cases hparse
          simp only [hp]
  | none =>
      cases hparse
      simp only [hread.resolve_left (by decide), if_true]

end All

end Snapshot

namespace Store

section Views

variable {types : Types} {s : Store} {p : Principal} {c : String} {cond : Option (Cond Token)}
  {fm : Family}

/-- A class that has a record has a shape. -/
theorem record_of_empty_lineage (hf : s.backend.Filing) {rec : StoredRecord}
    (hrec : s.backend.RecordOf c rec)
    (hno : (s.snapshot.view.lineageOf c).isEmpty = true) : False := by
  have hmem : (rec.cid, s.backend.fieldsOf rec.cid) ∈ s.snapshot.view.lineageOf c :=
    List.mem_map.mpr ⟨(rec.cid, c, s.backend.fieldsOf rec.cid),
      List.mem_filter.mpr ⟨(hf.filedAs hrec).1, decide_eq_true rfl⟩, rfl⟩
  rw [List.isEmpty_iff.mp hno] at hmem
  exact List.not_mem_nil hmem

/-- A class that is not protected is streamed in windows of the order its records
    are scanned in. The window of no rows from the start is read as one row. -/
theorem views_streamed {kind : Nat → String} {xs : List Nat} (hok : StorageOk kind s)
    (hf : s.backend.Filing) (hn : s.backend.Named)
    (h : s.Viewable fam types p c none none fm) (hprot : (types.info c).isProtected = false)
    (hlist : Listing none (s.shownView (types.info c)) (s.shownMatching types p c none) xs) :
    ∃ ys : List Nat, ys.Perm xs ∧
      (∀ (limit : Option Nat) (offset : Nat), (limit = some 0 → 0 < offset) →
        s.snapshot.allWindow types p c (limit.map Nat.cast) offset none =
          .ok ((applyWindow ⟨limit, offset⟩ ys).map (s.snapshot.viewOf types))) ∧
      s.snapshot.allWindow types p c (some 0) 0 none =
        .ok ((ys.take 1).map (s.snapshot.viewOf types)) := by
  rcases Option.isSome_iff_exists.mp h.known with ⟨ti, hti⟩
  have hinfo : types.info c = ti := info_of_known hti
  have hscan : ∀ rec ∈ s.snapshot.recordsOf c, s.backend.RecordOf c rec :=
    fun rec hrec => (Snapshot.mem_recordsOf (s := s.snapshot) hf).mp hrec
  have hviews : ∀ rec ∈ s.snapshot.recordsOf c, s.snapshot.materialize types rec =
      .ok (s.snapshot.viewOf types rec.oid) := by
    intro rec hrec
    have hview : s.snapshot.viewFor types rec.oid = s.snapshot.materialize types rec :=
      Snapshot.viewFor_of_record (hscan rec hrec).1
    rw [← hview]
    exact (viewFor_row hok hf hn h.known h.decodes (hscan rec hrec)).1
  refine ⟨(s.snapshot.recordsOf c).map StoredRecord.oid, ?_, fun limit offset hw => ?_, ?_⟩
  · refine (List.perm_ext_iff_of_nodup (Snapshot.recordsOf_nodup (s := s.snapshot) hf c)
      (hlist.nodup h.orders)).mpr fun oid => ?_
    -- An unprotected class without a condition: every record of it is shown.
    rw [List.mem_map, hlist.mem]
    constructor
    · rintro ⟨rec, hrec, rfl⟩
      refine ⟨?_, fun d hd => absurd hd.symm (Option.some_ne_none d), fun hp => ?_⟩
      · rw [classRows_of_record (hscan rec hrec).1 (hscan rec hrec).2]
        rfl
      · exact absurd (hprot.symm.trans hp) (by decide)
    · intro hoid
      rcases record_of_row hok hoid.row with ⟨rec, hrec, ho, -⟩
      exact ⟨rec, (Snapshot.mem_recordsOf (s := s.snapshot) hf).mpr hrec, ho⟩
  · rw [Snapshot.allWindow_streamed hti (hinfo ▸ hprot) (validateWindow_ok limit offset),
      Snapshot.streamWindow_eq hviews hw, ← applyWindow_map, List.map_map]
    rfl
  · -- the stream looks at its limit after it has taken a record, so zero lets one through
    have hwin : validateWindow (some 0) 0 = .ok ⟨some 0, 0⟩ := validateWindow_ok (some 0) 0
    rw [Snapshot.allWindow_streamed hti (hinfo ▸ hprot) hwin,
      Snapshot.streamWindow_zero hviews, ← List.map_take, ← List.map_take, List.map_map]
    rfl

/-- The reads of a snapshot: there is one listing of the rows the condition keeps
    and the principal may read, and they show its windows. -/
theorem views_listing {fam : String → String → Family} (hs : s.Reliable fam types)
    {order : Option OrderBy} {parsed : Option (String × Bool)}
    (hparse : parseOrder order (types.info c) = .ok parsed)
    (h : s.Viewable (fam c) types p c cond parsed fm) :
    ∃ xs, Listing parsed (s.shownView (types.info c)) (s.shownMatching types p c cond) xs ∧
      (∀ oid ∈ xs, (s.snapshot.viewOf types oid).oid = oid ∧
        (s.snapshot.viewOf types oid).value = s.shownView (types.info c) oid) ∧
      (∀ (limit : Option Nat) (offset : Nat),
        s.snapshot.query types p c cond (limit.map Nat.cast) offset order =
          .ok ((applyWindow ⟨limit, offset⟩ xs).map (s.snapshot.viewOf types))) ∧
      s.snapshot.count types p c cond = .ok xs.length ∧
      (cond = none → order.isSome ∨ (types.info c).isProtected = true →
        ∀ (limit : Option Nat) (offset : Nat),
          s.snapshot.allWindow types p c (limit.map Nat.cast) offset order =
            .ok ((applyWindow ⟨limit, offset⟩ xs).map (s.snapshot.viewOf types))) ∧
      (cond = none → order = none → (types.info c).isProtected = false →
        ∃ ys : List Nat, ys.Perm xs ∧
          (∀ (limit : Option Nat) (offset : Nat), (limit = some 0 → 0 < offset) →
            s.snapshot.allWindow types p c (limit.map Nat.cast) offset order =
              .ok ((applyWindow ⟨limit, offset⟩ ys).map (s.snapshot.viewOf types))) ∧
          s.snapshot.allWindow types p c (some 0) 0 order =
            .ok ((ys.take 1).map (s.snapshot.viewOf types))) := by
  rcases hs.storage with ⟨kind, hok⟩
  have hf := hs.filing
  have hn := hs.named
  rcases classIndexes_stands (c := c) hs.families hok hs.tidy hs.inStep hs.indexed with
    ⟨ci, hci, hstands⟩
  have hready := readies_viewed (readies_of_stands hstands hok hs.inStep.rows hs.indexed.conform
    hs.labelled h.floor h.decodes)
  rcases viewWindow_spec hok hf hn h hci hready ⟨none, 0⟩ with ⟨selected, xs, hsel, hlist, -⟩
  -- Every window is cut from the one listing, whatever its limit and offset.
  have hwindow : ∀ win, readWindow ci (s.snapshot.selectViews types) EntityView.value
      selected.1 selected.2 parsed win =
        .ok ((applyWindow win xs).map (s.snapshot.viewOf types)) := by
    intro win
    rcases viewWindow_spec hok hf hn h hci hready win with ⟨selected', ys, hsel', hys, hread⟩
    rw [hsel, Except.ok.injEq] at hsel'
    rw [hsel', listing_unique h.orders hlist hys]
    exact hread
  have hrow : ∀ oid ∈ xs, ∃ rec, s.backend.RecordOf c rec ∧ rec.oid = oid := by
    intro oid hoid
    rcases record_of_row hok ((hlist.mem oid).mp hoid).row with ⟨rec, hrec, ho, -⟩
    exact ⟨rec, hrec, ho⟩
  -- A class without a lineage in the snapshot has no records, and the reads end early.
  have hempty : (s.snapshot.view.lineageOf c).isEmpty = true → xs = [] := by
    intro hno
    rw [List.eq_nil_iff_forall_not_mem]
    intro oid hoid
    rcases hrow oid hoid with ⟨rec, hrec, -⟩
    exact record_of_empty_lineage hf hrec hno
  rcases Option.isSome_iff_exists.mp h.known with ⟨ti', hti'⟩
  have hinfo : types.info c = ti' := info_of_known hti'
  refine ⟨xs, hlist, fun oid hoid => ?_, fun limit offset => ?_, ?_, ?_, ?_⟩
  · rcases hrow oid hoid with ⟨rec, hrec, rfl⟩
    exact (viewFor_row hok hf hn h.known h.decodes hrec).2
  · rw [Snapshot.query, validateWindow_ok]
    simp only [Except.mapError, Bind.bind, Except.bind]
    by_cases hno : (s.snapshot.view.lineageOf c).isEmpty = true
    · rw [if_pos hno, hempty hno, applyWindow_nil, List.map_nil]
    · rw [if_neg hno, hparse, hci]
      simp only [hsel, comparing, Except.mapError]
      exact hwindow _
  · rw [Snapshot.count]
    by_cases hno : (s.snapshot.view.lineageOf c).isEmpty = true
    · rw [if_pos hno, hempty hno, List.length_nil]
    · rw [if_neg hno, hci]
      exact viewCount_spec hok hf hn h hready hlist
  · rintro rfl hread limit offset
    rw [Snapshot.allWindow_indexed hti' (validateWindow_ok limit offset) (hinfo ▸ hparse)
      (hinfo ▸ hread), Snapshot.indexedWindow, hci]
    change (comparing (candidates (types.info c) ci none p) >>= fun selected =>
      readWindow ci (s.snapshot.selectViews types) EntityView.value selected.1 selected.2 parsed
        ⟨limit, offset⟩) = _
    rw [hsel]
    exact hwindow _
  · rintro rfl rfl hprot
    cases hparse
    exact views_streamed hok hf hn h hprot hlist

end Views

end Store

namespace Watched

open Store

/-- In any store a run comes to, a class is read on a snapshot in windows of one
    listing of the rows the condition keeps and the principal may read: `query`
    shows the window, `count` gives the length, and so does `all` show it if it
    reads the index. A class that is not protected is streamed in the order of its
    shapes, in windows of that listing, except that a window of no rows from the
    start shows the first row. -/
theorem snapshot_windows (fam : String → String → Family) (hfam : ∀ c f, fam c f ≠ .nan)
    (fills : String → String → Option (Val Token)) (types : Types) (attached : Bool)
    (events : List Event)
    (hrun : EachStep step (KeepsIndexed anyClass fam fills) (begin types attached) events)
    (p : Principal) (c : String) (cond : Option (Cond Token)) (order : Option OrderBy)
    (parsed : Option (String × Bool)) (fm : Family) :
    let w := ((begin types attached).run events).world
    let s := w.store
    let ti := w.types.info c
    parseOrder order ti = .ok parsed → s.Viewable (fam c) w.types p c cond parsed fm →
    ∃ xs, Listing parsed (s.shownView ti) (s.shownMatching w.types p c cond) xs ∧
      (∀ oid ∈ xs, (s.snapshot.viewOf w.types oid).oid = oid ∧
        (s.snapshot.viewOf w.types oid).value = s.shownView ti oid) ∧
      (∀ (limit : Option Nat) (offset : Nat),
        s.snapshot.query w.types p c cond (limit.map Nat.cast) offset order =
          .ok ((applyWindow ⟨limit, offset⟩ xs).map (s.snapshot.viewOf w.types))) ∧
      s.snapshot.count w.types p c cond = .ok xs.length ∧
      (cond = none → order.isSome ∨ ti.isProtected = true →
        ∀ (limit : Option Nat) (offset : Nat),
          s.snapshot.allWindow w.types p c (limit.map Nat.cast) offset order =
            .ok ((applyWindow ⟨limit, offset⟩ xs).map (s.snapshot.viewOf w.types))) ∧
      (cond = none → order = none → ti.isProtected = false → ∃ ys : List Nat, ys.Perm xs ∧
        (∀ (limit : Option Nat) (offset : Nat), (limit = some 0 → 0 < offset) →
          s.snapshot.allWindow w.types p c (limit.map Nat.cast) offset order =
            .ok ((applyWindow ⟨limit, offset⟩ ys).map (s.snapshot.viewOf w.types))) ∧
        s.snapshot.allWindow w.types p c (some 0) 0 order =
          .ok ((ys.take 1).map (s.snapshot.viewOf w.types))) :=
  views_listing (run_reliable hfam types attached events hrun)

/-- On a snapshot of two parts a window of one shows the part with the greater
    code. -/
theorem snapshot_windows_on_parts :
    let w := ((begin partTypes false).run (session queriedParts)).world
    let s := w.store
    let ti := w.types.info "part"
    ∃ xs, Listing (some ("code", true)) (s.shownView ti)
        (s.shownMatching w.types partOwner "part" none) xs ∧
      s.snapshot.query w.types partOwner "part" none (some 1) 0
          (some (.tuple [some "code", some "desc"])) =
        .ok ((applyWindow ⟨some 1, 0⟩ xs).map (s.snapshot.viewOf w.types)) ∧
      s.snapshot.count w.types partOwner "part" none = .ok xs.length := by
  intro w s ti
  have hrun : EachStep step (KeepsIndexed anyClass (fun _ _ => .number)
      fun c f => (partTypes.info c).fill f) (begin partTypes false) (session queriedParts) :=
    ⟨trivial, trivial, by decide +kernel, trivial, trivial, trivial, by decide +kernel, trivial⟩
  have hentries : ∀ e ∈ s.backend.objects.entries, "code" ∈ s.backend.fieldsOf e.2.cid ∧
      ((s.rawView (w.types.info "part") e.1 "code").orderKey.map Key.family) = some .number := by
    decide +kernel
  have hkeys : ∀ ci ∈ (s.snapshot.classIndexes w.types "part").toOption,
      ∀ col ∈ ci.eq.get? "code", ∀ k ∈ col.keys, ∀ j ∈ k, j.family = .number := by
    decide +kernel
  have hnames : (w.types.info "part").fieldNames = ["code"] := by decide +kernel
  have h : s.Viewable (fun _ => .number) w.types partOwner "part" none (some ("code", true))
      .number := by
    refine ⟨?_, fun hprot => absurd hprot (by decide +kernel), fun rec hrec f hf hno => ?_,
      fun d hd => (nomatch hd), fun d hd => (nomatch hd), ⟨by decide, fun o ho oid hoid => ?_⟩,
      fun o ho => ?_, fun ci hci o ho _ => ⟨by decide, fun k hk => ?_⟩⟩
    · have htypes : w.types = partTypes := session_types _ _ _
      rw [htypes]
      rfl
    · rw [hnames, List.mem_singleton] at hf
      subst hf
      exact absurd (hentries _ ((Dict.get?_eq_some_iff _ _ _).mp hrec.1)).1 hno
    · cases ho
      rcases run_coherent partTypes false (session queriedParts) with ⟨kind, hc⟩
      rcases record_of_row hc.store.storage hoid.row with ⟨rec, hrec, rfl, -⟩
      have hkey := (hentries _ ((Dict.get?_eq_some_iff _ _ _).mp hrec.1)).2
      rw [shownView]
      cases hv : s.rawView (w.types.info "part") rec.oid "code" with
      | scalar sc =>
          rw [hv] at hkey
          exact Or.inr ⟨sc, rfl, Option.some.inj hkey⟩
      | _ =>
          rw [hv] at hkey
          cases hkey
    · cases ho
      decide +kernel
    · cases ho
      rcases Option.isSome_iff_exists.mp hk with ⟨oids, hoids⟩
      rcases Option.bind_eq_some_iff.mp hoids with ⟨col, hcol, hget⟩
      exact hkeys ci (by rw [hci]; rfl) col hcol (some k)
        ((Dict.mem_keys_iff _ _).mpr ⟨oids, hget⟩) k rfl
  have hparse : parseOrder (some (.tuple [some "code", some "desc"])) (w.types.info "part") =
      .ok (some ("code", true)) := by
    rw [session_types]
    rfl
  rcases snapshot_windows (fun _ _ => .number) (fun _ _ h => nomatch h)
    (fun c f => (partTypes.info c).fill f) partTypes false (session queriedParts) hrun partOwner
    "part" none (some (.tuple [some "code", some "desc"])) (some ("code", true)) .number
    hparse h with ⟨xs, hlist, -, hquery, hcount, -⟩
  exact ⟨xs, hlist, hquery (some 1) 0, hcount⟩

end Watched

end DataCrystal
