import DataCrystal.Index.Planner

/-!
# The Planner and Evaluation

`plan_spec` lifts the plans of leaf predicates to condition trees: a plan
selects the rows the condition keeps. A row that is kept is a row the condition
holds on, and the converse fails only where a lookup in a unique map loses a
row, so the planner agrees with evaluation precisely when no row is lost.

## Theorems

* `plan_spec`: The plan of a condition selects the rows it keeps.
* `evaluate_of_kept`: A condition holds on the rows it keeps.
* `planner_agrees_iff`: When the planner and evaluation agree.
-/

namespace DataCrystal

open ClassIndexes

variable {ρ : Type} [DecidableEq ρ] {fam : String → Family} {ti : TypeInfo} {rows : Rows}
  {lost : Lost} {ci : ClassIndexes} {view : Nat → String → Val ρ}

section Compose

/-- A conjunction of residuals holds where all of them do. -/
theorem joinResiduals_iff {row : String → Val ρ} {rs : List (Cond ρ)}
    (hans : ∀ r ∈ rs, r.Answers row) :
    (∀ r, joinResiduals rs = some r → r.evaluate row = .ok true) ↔
      ∀ r ∈ rs, r.evaluate row = .ok true := by
  rcases rs with _ | ⟨r, _ | ⟨r', rs⟩⟩
  · simp [joinResiduals]
  · simp [joinResiduals]
  · simp only [joinResiduals, Option.some.injEq, forall_eq']
    exact Cond.evaluate_and_iff row _ (Cond.answers_and.mpr hans)

omit [DecidableEq ρ] in
theorem joinResiduals_isNone (rs : List (Cond ρ)) : (joinResiduals rs).isNone = rs.isEmpty := by
  rcases rs with _ | ⟨r, _ | ⟨r', rs⟩⟩ <;> rfl

omit [DecidableEq ρ] in
theorem joinResiduals_tests {rs : List (Cond ρ)} {r : Cond ρ} (h : joinResiduals rs = some r)
    {e : String × Test ρ} (he : e ∈ r.tests) : ∃ r' ∈ rs, e ∈ r'.tests := by
  rcases rs with _ | ⟨r₁, _ | ⟨r₂, rs⟩⟩
  · simp [joinResiduals] at h
  · rw [joinResiduals, Option.some.injEq] at h
    exact ⟨r₁, List.mem_singleton_self _, h ▸ he⟩
  · simp only [joinResiduals, Option.some.injEq] at h
    rw [← h, Cond.tests, Cond.mem_testsAll] at he
    exact he

/-- The parts of a conjunction, planned: the bitmaps met and the residuals put
    together. A row is selected by the whole if and only if every part keeps it. -/
structure PlansAll (ti : TypeInfo) (rows : Rows) (lost : Lost) (view : Nat → String → Val ρ)
    (cs : List (Cond ρ)) (pls : List (Planned ρ)) : Prop where
  covers : ((meetBitmaps (pls.map Prod.fst)).isSome, (pls.filterMap Prod.snd).isEmpty) =
    coverage.meet ti cs
  bounded : ∀ bm, meetBitmaps (pls.map Prod.fst) = some bm → ∀ oid ∈ bm, (rows oid).isSome
  tests : ∀ r ∈ pls.filterMap Prod.snd, ∀ e ∈ r.tests, ∃ c ∈ cs, e ∈ c.tests
  selects : ∀ oid, (rows oid).isSome →
    (((∀ bm, meetBitmaps (pls.map Prod.fst) = some bm → oid ∈ bm) ∧
      ∀ r ∈ pls.filterMap Prod.snd, r.evaluate (view oid) = .ok true) ↔
        Kept.keptAll ti rows lost view oid cs)

/-- Meeting one more bitmap. -/
theorem meetBitmaps_cons (b : Option (Finset Nat)) (bms : List (Option (Finset Nat))) :
    (meetBitmaps (b :: bms)).isSome = (b.isSome || (meetBitmaps bms).isSome) ∧
      ∀ oid, (∀ bm, meetBitmaps (b :: bms) = some bm → oid ∈ bm) ↔
        (∀ bm, b = some bm → oid ∈ bm) ∧ ∀ bm, meetBitmaps bms = some bm → oid ∈ bm := by
  cases b with
  | none => simp [meetBitmaps]
  | some b =>
      cases hrest : meetBitmaps bms with
      | none => simp [meetBitmaps, hrest]
      | some c => simp [meetBitmaps, hrest]

theorem planAll_spec (cs : List (Cond ρ))
    (h : ∀ c ∈ cs, ∃ pl, plan ci c = .ok pl ∧ Plans ti rows lost view c pl) :
    ∃ pls, plan.planAll ci cs = .ok pls ∧ PlansAll ti rows lost view cs pls := by
  induction cs with
  | nil =>
      exact ⟨[], rfl, rfl, by simp [meetBitmaps], by simp, by simp [meetBitmaps, Kept.keptAll]⟩
  | cons c cs ih =>
      rcases h c List.mem_cons_self with ⟨pl, hpl, hp⟩
      rcases ih fun d hd => h d (List.mem_cons_of_mem c hd) with ⟨pls, hpls, hps⟩
      have hmeet := meetBitmaps_cons pl.1 (pls.map Prod.fst)
      have hfilter : (pl :: pls).filterMap Prod.snd = pl.2.toList ++ pls.filterMap Prod.snd := by
        cases h2 : pl.2 <;> simp [h2]
      refine ⟨pl :: pls, by simp [plan.planAll, hpl, hpls, Except.map], ?_, ?_, ?_, ?_⟩
      -- Covered: the bitmap of the head meets that of the tail.
      · rw [List.map_cons, hmeet.1, hfilter, coverage.meet, ← hp.covers, ← hps.covers]
        cases pl.2 <;> simp
      -- Bounded: by the head, if it has a bitmap, else by the tail.
      · intro bm hbm oid hoid
        by_cases hb : ∃ b, pl.1 = some b
        · rcases hb with ⟨b, hb⟩
          refine hp.bounded b hb oid ?_
          refine ((hmeet.2 oid).mp fun bm' hbm' => ?_).1 b hb
          rw [List.map_cons, hbm'] at hbm
          rw [Option.some.injEq] at hbm
          rw [hbm]
          exact hoid
        · refine hps.bounded bm ?_ oid hoid
          cases h1 : pl.1 with
          | none => rwa [List.map_cons, h1, meetBitmaps] at hbm
          | some b => exact absurd ⟨b, h1⟩ hb
      -- What is left to test is of the head or of the tail.
      · intro r hr e he
        rw [hfilter, List.mem_append, Option.mem_toList] at hr
        rcases hr with hr | hr
        · exact ⟨c, List.mem_cons_self, hp.tests r hr e he⟩
        · rcases hps.tests r hr e he with ⟨d, hd, hed⟩
          exact ⟨d, List.mem_cons_of_mem c hd, hed⟩
      -- And a row passes all if it passes the head and the tail.
      · intro oid hrow
        rw [Kept.keptAll, ← hp.selects oid hrow, ← hps.selects oid hrow, List.map_cons, hmeet.2,
          hfilter]
        simp only [List.mem_append, Option.mem_toList, or_imp, forall_and]
        tauto

/-- The branches of a disjunction: all their bitmaps, or none. -/
theorem planBranches_spec (cs : List (Cond ρ))
    (h : ∀ c ∈ cs, ∃ pl, plan ci c = .ok pl ∧ Plans ti rows lost view c pl) :
    ∃ bms, plan.planBranches ci cs = .ok bms ∧ bms.isSome = coverage.branches ti cs ∧
      ∀ bs, bms = some bs → (∀ b ∈ bs, ∀ oid ∈ b, (rows oid).isSome) ∧
        ∀ oid, (rows oid).isSome →
          ((∃ b ∈ bs, oid ∈ b) ↔ Kept.keptAny ti rows lost view oid cs) := by
  induction cs with
  | nil => exact ⟨some [], rfl, rfl, by simp [Kept.keptAny]⟩
  | cons c cs ih =>
      rcases h c List.mem_cons_self with ⟨pl, hpl, hp⟩
      rcases ih fun d hd => h d (List.mem_cons_of_mem c hd) with ⟨bms, hbms, hfull, hsel⟩
      have hcov := hp.covers
      rw [Prod.ext_iff] at hcov
      -- With a bitmap and nothing left the branch joins, in every other case all of it is dropped.
      rcases pl with ⟨_ | b, _ | r⟩
      · refine ⟨none, by simp only [plan.planBranches, hpl], ?_, by simp⟩
        simp [coverage.branches, ← hcov.1]
      · refine ⟨none, by simp only [plan.planBranches, hpl], ?_, by simp⟩
        simp [coverage.branches, ← hcov.1]
      · refine ⟨bms.map fun bms => b :: bms, by simp [plan.planBranches, hpl, hbms, Except.map],
          ?_, ?_⟩
        · simp [coverage.branches, ← hcov.1, ← hcov.2, hfull]
        · intro bs hbs
          rcases Option.map_eq_some_iff.mp hbs with ⟨bs', hbs', rfl⟩
          rcases hsel bs' hbs' with ⟨hbound, hkept⟩
          refine ⟨?_, fun oid hrow => ?_⟩
          · simp only [List.mem_cons, forall_eq_or_imp]
            exact ⟨hp.bounded b rfl, hbound⟩
          · have hone := hp.selects oid hrow
            simp only [Option.some.injEq, forall_eq', reduceCtorEq, false_implies, implies_true,
              and_true] at hone
            rw [Kept.keptAny, ← hkept oid hrow, ← hone]
            simp
      · refine ⟨none, by simp only [plan.planBranches, hpl], ?_, by simp⟩
        simp [coverage.branches, ← hcov.2]

theorem mem_foldl_union (bms : List (Finset Nat)) (oid : Nat) :
    oid ∈ bms.foldl (fun acc bm => acc ∪ bm) ∅ ↔ ∃ b ∈ bms, oid ∈ b := by
  have hfold : ∀ acc : Finset Nat,
      oid ∈ bms.foldl (fun acc bm => acc ∪ bm) acc ↔ oid ∈ acc ∨ ∃ b ∈ bms, oid ∈ b := by
    induction bms with
    | nil => intro acc; simp
    | cons b bms ih =>
        intro acc
        rw [List.foldl_cons, ih, Finset.mem_union]
        simp only [List.mem_cons, exists_eq_or_imp, or_assoc]
  rw [hfold]
  simp

end Compose

/-- The plan of a condition selects the rows it keeps. -/
theorem plan_spec (hrep : Represents ti rows lost ci) (hs : Sound fam ci)
    (hb : ci.building = false) (hview : Views ti rows view)
    (hlost : ∀ f k n, lost f k n → ∀ m, ci.holder f k = some m → m ≠ n) (c : Cond ρ)
    (hadm : Admissible fam ti c.tests)
    (hans : ∀ oid, (rows oid).isSome → c.Answers (view oid)) :
    ∃ pl, plan ci c = .ok pl ∧ Plans ti rows lost view c pl := by
  -- By the shape of the condition, as the planner recurs: tests, conjunctions, disjunctions, and
  -- negations, which it leaves to the residual.
  induction c using Cond.induction_parts with
  | hpred f t =>
      rw [plan]
      exact planPred_spec hrep hs hb hview hlost f t hadm
        fun oid hrow => hans oid hrow (f, t) (List.mem_singleton_self _)
  | hand ps ih =>
      have hparts : ∀ c ∈ ps, ∃ pl, plan ci c = .ok pl ∧ Plans ti rows lost view c pl :=
        fun c hc => ih c hc
          (hadm.mono fun e he => (Cond.mem_testsAll ps e).mpr ⟨c, hc, he⟩)
          fun oid hrow => Cond.answers_and.mp (hans oid hrow) c hc
      rcases planAll_spec ps hparts with ⟨pls, hpls, hall⟩
      -- The bitmaps meet and the residuals are joined; a row is kept if every part keeps it.
      refine ⟨_, by rw [plan, hpls]; rfl, ?_, hall.bounded, ?_, fun oid hrow => ?_⟩
      · rw [coverage, ← hall.covers, joinResiduals_isNone]
      · intro r hr e he
        rcases joinResiduals_tests hr he with ⟨r', hr', her⟩
        exact (Cond.mem_testsAll ps e).mpr (hall.tests r' hr' e her)
      · have hres : ∀ r ∈ pls.filterMap Prod.snd, r.Answers (view oid) := by
          intro r hr e he
          rcases hall.tests r hr e he with ⟨d, hd, hed⟩
          exact hans oid hrow e ((Cond.mem_testsAll ps e).mpr ⟨d, hd, hed⟩)
        rw [Kept, ← hall.selects oid hrow, joinResiduals_iff hres]
  | hor ps ih =>
      have hparts : ∀ c ∈ ps, ∃ pl, plan ci c = .ok pl ∧ Plans ti rows lost view c pl :=
        fun c hc => ih c hc
          (hadm.mono fun e he => (Cond.mem_testsAll ps e).mpr ⟨c, hc, he⟩)
          fun oid hrow => Cond.answers_or.mp (hans oid hrow) c hc
      -- One branch without a bitmap, or with a residual, makes the whole of it residual.
      rcases planBranches_spec ps hparts with ⟨bms, hbms, hfull, hsel⟩
      cases bms with
      | none =>
          refine ⟨_, by rw [plan, hbms]; rfl, ?_, by simp, ?_, fun oid hrow => ?_⟩
          · rw [coverage, ← hfull]
            rfl
          · intro r hr e he
            rw [← Option.some.inj hr] at he
            exact he
          · rw [Kept, ← hfull]
            simp
      | some bs =>
          rcases hsel bs rfl with ⟨hbound, hkept⟩
          refine ⟨_, by rw [plan, hbms]; rfl, ?_, ?_, by simp, fun oid hrow => ?_⟩
          · rw [coverage, ← hfull]
            rfl
          · intro bm hbm oid hoid
            rw [← Option.some.inj hbm, mem_foldl_union] at hoid
            rcases hoid with ⟨b, hb, hoid⟩
            exact hbound b hb oid hoid
          · rw [Kept, ← hfull, ← hkept oid hrow]
            simp [mem_foldl_union]
  | hnot c ih =>
      refine ⟨_, rfl, rfl, by simp, ?_, fun oid hrow => ?_⟩
      · intro r hr e he
        rw [← Option.some.inj hr] at he
        exact he
      · rw [Kept]
        simp

theorem keptAll_iff (oid : Nat) (cs : List (Cond ρ)) :
    Kept.keptAll ti rows lost view oid cs ↔ ∀ c ∈ cs, Kept ti rows lost view oid c := by
  induction cs with
  | nil => simp [Kept.keptAll]
  | cons c cs ih => simp [Kept.keptAll, ih]

theorem keptAny_iff (oid : Nat) (cs : List (Cond ρ)) :
    Kept.keptAny ti rows lost view oid cs ↔ ∃ c ∈ cs, Kept ti rows lost view oid c := by
  induction cs with
  | nil => simp [Kept.keptAny]
  | cons c cs ih => simp [Kept.keptAny, ih]

/-- A condition holds on the rows it keeps. -/
theorem evaluate_of_kept {oid : Nat} {c : Cond ρ} (hans : c.Answers (view oid))
    (h : Kept ti rows lost view oid c) : c.evaluate (view oid) = .ok true := by
  induction c using Cond.induction_parts with
  | hpred f t =>
      rw [Kept] at h
      exact h.1
  | hand ps ih =>
      rw [Kept, keptAll_iff] at h
      exact (Cond.evaluate_and_iff _ ps hans).mpr
        fun c hc => ih c hc (Cond.answers_and.mp hans c hc) (h c hc)
  | hor ps ih =>
      rw [Kept] at h
      split at h
      · rcases (keptAny_iff oid ps).mp h with ⟨c, hc, hkept⟩
        exact (Cond.evaluate_or_iff _ ps hans).mpr
          ⟨c, hc, ih c hc (Cond.answers_or.mp hans c hc) hkept⟩
      · exact h
  | hnot c ih =>
      rw [Kept] at h
      exact h

/-- The rows a plan returns are the rows its condition keeps. -/
theorem selected_iff {c : Cond ρ} {pl : Planned ρ} (hext : ∀ oid, oid ∈ ci.extent ↔
    (rows oid).isSome) (hp : Plans ti rows lost view c pl) (oid : Nat) :
    Selected ci view pl oid ↔ (rows oid).isSome ∧ Kept ti rows lost view oid c := by
  rw [Selected]
  rcases pl with ⟨_ | bm, r⟩
  · rw [Option.getD_none, hext]
    refine and_congr_right fun hrow => ?_
    rw [← hp.selects oid hrow]
    simp
  · rw [Option.getD_some]
    constructor
    · rintro ⟨hmem, hres⟩
      have hrow := hp.bounded bm rfl oid hmem
      refine ⟨hrow, (hp.selects oid hrow).mp ⟨fun b hb => ?_, hres⟩⟩
      rw [← Option.some.inj hb]
      exact hmem
    · rintro ⟨hrow, hkept⟩
      rcases (hp.selects oid hrow).mpr hkept with ⟨hbm, hres⟩
      exact ⟨hbm bm rfl, hres⟩

section Built

variable {rows : List (Nat × (String → Val ρ))}

omit [DecidableEq ρ] in
/-- Conforming rows are a view of what an index of them stands for. -/
theorem views_rows (hconf : ∀ e ∈ rows, Conforms fam ti e.2) :
    Views ti (rowsOf ti rows) (rowView rows) := by
  refine ⟨fun oid r hr f hf => ?_, fun oid r hr f hf => ?_⟩
  · rcases rowsOf_eq_some hr with ⟨e, he, -, rfl, hview⟩
    rw [hview]
    exact (hconf e he).keyed f hf
  · rcases rowsOf_eq_some hr with ⟨e, he, -, rfl, -⟩
    exact (hconf e he).noNan f hf

omit [DecidableEq ρ] in
/-- A unique map does not name a row that has lost its key. -/
theorem holder_ne_of_lost (hnd : (rows.map Prod.fst).Nodup)
    (hrep : Represents ti (rowsOf ti rows) (lostIn ti rows) ci) (f : String) (k : Key) (n : Nat)
    (hlost : lostIn ti rows f k n) (m : Nat) (hm : ci.holder f k = some m) : m ≠ n := by
  rintro rfl
  have hu : f ∈ ti.uniqueFields := (hrep.uniqueKeys f).mp (mem_keys_of_holder hm)
  have hlost' := hlost
  rcases hlost' with ⟨before, row, after, hrows, e, he, hk⟩
  rcases exists_not_lostIn hnd (show e ∈ rows by rw [hrows]; simp [he]) hk with
    ⟨d, hd, hdk, hno⟩
  have hheld := hrep.held f hu k d.1 (by
    rw [(rowsOf_of_mem hnd hd).1, recalled_some]
    exact hdk) hno
  rw [hheld, Option.some.injEq] at hm
  rw [hm] at hno
  exact hno hlost

end Built

/-- The planner agrees with evaluation on an index built from records precisely
    when every row the condition holds on is kept: at the leaves a lookup in the
    map of a unique-only field decides, the row holds a key and no row scanned
    later holds it too. -/
theorem planner_agrees_iff (lineage : Lineage) (scan : Nat → List StoredRecord)
    (cond : Cond Token) (hbuild : buildClassIndexes ti lineage scan = .ok ci)
    (hfam : ∀ f ∈ ti.sortedFields, fam f ≠ .nan)
    (hnd : ((scannedRows ti lineage scan).map Prod.fst).Nodup)
    (hconf : ∀ e ∈ scannedRows ti lineage scan, Conforms fam ti e.2)
    (hadm : Admissible fam ti cond.tests)
    (hans : ∀ e ∈ scannedRows ti lineage scan, cond.Answers e.2) :
    ∃ planned, plan ci cond = .ok planned ∧
      ((∀ oid, Selected ci (rowView (scannedRows ti lineage scan)) planned oid ↔
          oid ∈ ci.extent ∧
            cond.evaluate (rowView (scannedRows ti lineage scan) oid) = .ok true) ↔
        ∀ oid ∈ ci.extent,
          cond.evaluate (rowView (scannedRows ti lineage scan) oid) = .ok true →
          Kept ti (rowsOf ti (scannedRows ti lineage scan))
            (lostIn ti (scannedRows ti lineage scan))
            (rowView (scannedRows ti lineage scan)) oid cond) := by
  rcases build_spec lineage scan hfam (admits_of_build hbuild) hnd hconf with
    ⟨ci', hbuild', hrep, hs, hb⟩
  rw [hbuild, Except.ok.injEq] at hbuild'
  rw [← hbuild'] at hrep hs hb
  -- The condition answers on every row that was scanned.
  have hrows : ∀ oid, (rowsOf ti (scannedRows ti lineage scan) oid).isSome →
      cond.Answers (rowView (scannedRows ti lineage scan) oid) := by
    intro oid hrow
    rcases Option.isSome_iff_exists.mp hrow with ⟨r, hr⟩
    rcases rowsOf_eq_some hr with ⟨e, he, -, -, hview⟩
    rw [hview]
    exact hans e he
  rcases plan_spec hrep hs hb (views_rows hconf) (holder_ne_of_lost hnd hrep) cond hadm hrows with
    ⟨planned, hplan, hp⟩
  refine ⟨planned, hplan, ?_⟩
  have hsel := selected_iff hrep.extent hp
  constructor
  -- A row that is selected is kept; conversely a row that is kept satisfies the condition.
  · intro hagree oid hext htrue
    exact ((hsel oid).mp ((hagree oid).mpr ⟨hext, htrue⟩)).2
  · intro hkept oid
    rw [hsel, ← hrep.extent]
    refine and_congr_right fun hext => ⟨fun hk => ?_, hkept oid hext⟩
    exact evaluate_of_kept (hrows oid ((hrep.extent oid).mp hext)) hk

/-- A class with one field, unique and without another marker. -/
def accountInfo : TypeInfo :=
  { dataSpecs := [{ name := "email", unique := true, entityRef := false }] }

def accountRecords : Nat → List StoredRecord
  | 1 => [⟨7, 1, 1, [.none]⟩, ⟨8, 1, 1, [.scalar (.str "a")]⟩]
  | _ => []

abbrev accountRows : List (Nat × (String → Val Token)) :=
  scannedRows accountInfo [(1, ["email"])] accountRecords

theorem accountRows_conform : ∀ e ∈ accountRows, Conforms (fun _ => .str) accountInfo e.2 := by
  decide

/-- `email == "a"` is answered by the unique map as by evaluation. -/
theorem planner_agrees_on_accounts : ∃ ci planned,
    buildClassIndexes accountInfo [(1, ["email"])] accountRecords = .ok ci ∧
      plan ci (.pred "email" (.eq (.scalar (.str "a")))) = .ok planned ∧
      ((∀ oid, Selected ci (rowView accountRows) planned oid ↔ oid ∈ ci.extent ∧
          (Cond.pred "email" (.eq (.scalar (.str "a")))).evaluate (rowView accountRows oid) =
            .ok true) ↔
        ∀ oid ∈ ci.extent,
          (Cond.pred "email" (.eq (.scalar (.str "a")))).evaluate (rowView accountRows oid) =
            .ok true →
          Kept accountInfo (rowsOf accountInfo accountRows) (lostIn accountInfo accountRows)
            (rowView accountRows) oid (.pred "email" (.eq (.scalar (.str "a"))))) := by
  have hans : ∀ e ∈ accountRows,
      (Cond.pred "email" (.eq (.scalar (.str "a")))).Answers e.2 := by
    intro e _ t ht
    obtain rfl : t = ("email", .eq (.scalar (.str "a"))) := by simpa [Cond.tests] using ht
    exact ⟨_, rfl⟩
  have hadm : Admissible (fun _ => .str) accountInfo
      (Cond.pred (ρ := Token) "email" (.eq (.scalar (.str "a")))).tests := by
    refine ⟨fun e he _ _ v hv => ?_, fun e he _ _ vs hvs => ?_, fun e he hf => ?_⟩
    · obtain rfl : e = ("email", .eq (.scalar (.str "a"))) := by simpa [Cond.tests] using he
      rw [← Test.eq.inj hv]
      exact ⟨_, rfl⟩
    · obtain rfl : e = ("email", .eq (.scalar (.str "a"))) := by simpa [Cond.tests] using he
      simp at hvs
    · exact absurd hf List.not_mem_nil
  rcases planner_agrees_iff [(1, ["email"])] accountRecords _ rfl (by decide) (by decide)
    accountRows_conform hadm hans with ⟨planned, hplan, hiff⟩
  exact ⟨_, planned, rfl, hplan, hiff⟩

/-- `email == None` finds the row that holds no address by evaluation, and not
    by the plan. -/
theorem planner_loses_none_row : ∃ ci planned,
    buildClassIndexes accountInfo [(1, ["email"])] accountRecords = .ok ci ∧
      plan ci (.pred "email" (.eq .none)) = .ok planned ∧ 7 ∈ ci.extent ∧
      (Cond.pred "email" (.eq .none)).evaluate (rowView accountRows 7) = .ok true ∧
      ¬Selected ci (rowView accountRows) planned 7 := by
  refine ⟨_, _, rfl, rfl, ?_, rfl, ?_⟩
  · decide
  · rintro ⟨hmem, -⟩
    revert hmem
    decide

end DataCrystal
