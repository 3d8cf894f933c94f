import DataCrystal.Index.Ordered
import DataCrystal.Index.Readable
import DataCrystal.Rebuilt

/-!
# Windows on the Committed Rows

A read selects rows of a class by a condition, puts them in an order and takes a
window. The planner may answer the condition wholly or in part, the field of the
order may be indexed or not, and the window may be taken before a record is
decoded or after; none of it shows in what is returned. There is one listing of
the rows a read is about, and every read returns its window of it.

`readWindow` is what the reads have in common. They differ in how they get at a
row, so it is handed a function that decodes the rows of some OIDs and keeps
those on which the residual holds.

For a principal other than root a read is about the readable rows alone: the
readable OIDs are taken out of the candidates before anything else, so a row
that may not be read takes no place in the window.

## Main definitions

* `candidates`: The OIDs a plan leaves, the readable among them.
* `readWindow`: The window of the selected rows.
* `Matching`: The rows a read is about.
* `Listing`: The order they are read in.
* `Readies`: What a read relies on of an index.

## Theorems

* `listing_unique`: There is one listing.
* `candidates_spec`: The candidates that pass the residual are the rows.
* `readWindow_spec`: A read returns the window of the listing.
* `countSelected_spec`: A count is the length of the listing.
-/

namespace DataCrystal

open ClassIndexes

/-- The exceptions of a read of rows that are read from somewhere. -/
inductive ReadErr (ε : Type)
  | query (e : QueryErr)
  | source (e : ε)
  /-- An indexed OID without a record. -/
  | noRecord (oid : Nat)
  /-- A class without a live counterpart, whose labels nobody enforces. -/
  | denied (typename : String)
  /-- An order over a class without a live counterpart. -/
  | noLiveClass (typename : String)

section Reads

variable {ρ β ε : Type} [DecidableEq ρ]

/-- A comparison that raised inside a read. -/
def comparing {α : Type} (x : Except ValueErr α) : Except (ReadErr ε) α :=
  x.mapError fun e => .query (.value e)

/-- The plan of a condition; without one nothing is planned. -/
def planOf (ci : ClassIndexes) (cond : Option (Cond ρ)) : Except ValueErr (Planned ρ) :=
  match cond with
  | none => .ok (none, none)
  | some c => plan ci c

/-- The candidates of a condition and what is left to evaluate. Of a protected
    class the readable OIDs alone are candidates. -/
def candidates (ti : TypeInfo) (ci : ClassIndexes) (cond : Option (Cond ρ)) (p : Principal) :
    Except ValueErr (Finset Nat × Option (Cond ρ)) := do
  let planned ← planOf ci cond
  let candidate := planned.1.getD ci.extent
  -- Before the window and the order, so a denied row fills no place.
  if ti.isProtected then
    let readable ← readableBitmap p ci
    match readable with
    | none => .ok (candidate, planned.2)
    | some rb => .ok (candidate ∩ rb, planned.2)
  else .ok (candidate, planned.2)

/-- The window of the selected rows. `select` decodes the rows of some OIDs and
    keeps those on which the residual holds. Without a residual the window is
    taken of the OIDs where their order is known, and of the rows elsewhere. -/
def readWindow (ci : ClassIndexes)
    (select : Option (Cond ρ) → List Nat → Except (ReadErr ε) (List β))
    (attr : β → String → Val ρ) (candidate : Finset Nat) (residual : Option (Cond ρ))
    (order : Option (String × Bool)) (w : Window) : Except (ReadErr ε) (List β) :=
  match order with
  | some (f, desc) =>
    if residual.isNone && ci.eq.contains f then do
      -- The postings say the order, so the rows are decoded of the window only.
      let oids ← comparing (windowedIndexOrder ci candidate f desc w)
      select none oids
    else do
      -- A row may fail the residual, so all of them are decoded.
      let rows ← select residual (oidsOf candidate)
      let ordered ← comparing (orderByValue (fun row => attr row f) desc rows)
      .ok (applyWindow w ordered)
  | none =>
    if residual.isNone then select none (windowIter w candidate)
    else do
      let rows ← select residual (oidsOf candidate)
      .ok (applyWindow w rows)

/-- The number of the selected rows; without a condition no plan is made. -/
def countSelected (ti : TypeInfo) (ci : ClassIndexes) (p : Principal) (cond : Option (Cond ρ))
    (select : Option (Cond ρ) → List Nat → Except (ReadErr ε) (List β)) :
    Except (ReadErr ε) Nat :=
  match cond with
  | none =>
    if ti.isProtected then do
      let readable ← comparing (readableBitmap p ci)
      -- Root reads without a fence, and so sees the extent.
      .ok ((readable.map Finset.card).getD ci.extent.card)
    else .ok ci.extent.card
  | some c => do
    let selected ← comparing (candidates ti ci (some c) p)
    -- Nothing left to evaluate: no row is decoded.
    if selected.2.isNone then .ok selected.1.card
    else do
      let rows ← select selected.2 (oidsOf selected.1)
      .ok rows.length

/-- The rows a read is about: those the condition keeps and the principal may read.
    Both are said of the rows themselves, without an index, a plan or a bitmap. -/
structure Matching (ti : TypeInfo) (rows : Rows) (lost : Lost) (view : Nat → String → Val ρ)
    (labels : Nat → Labels) (p : Principal) (cond : Option (Cond ρ)) (oid : Nat) : Prop where
  row : (rows oid).isSome
  kept : ∀ c, cond = some c → Kept ti rows lost view oid c
  readable : ti.isProtected = true → isRoot p = true ∨ isOwner p (labels oid).owner = true ∨
    ∃ g ∈ (labels oid).groups, Held p g ∧ (labels oid).readFloor ≤ level p g

/-- The key an order looks at; without an order there is none. -/
def orderedBy (order : Option (String × Bool)) (view : Nat → String → Val ρ) (oid : Nat) :
    Option Key :=
  order.bind fun o => (view oid o.1).orderKey

/-- A listing of OIDs: by the field asked for, or by ascending OID. The windows of a
    read are windows of one such listing, so two of them neither overlap nor leave a
    row out. -/
structure Listing (order : Option (String × Bool)) (view : Nat → String → Val ρ)
    (S : Nat → Prop) (xs : List Nat) : Prop where
  mem : ∀ oid, oid ∈ xs ↔ S oid
  arranged : Arranged Key.lt (order.elim false Prod.snd) (orderedBy order view) (· < ·) xs

/-- The values rows are ordered by: `None`, or scalars that compare. Those of the
    rows a read is about, since no other row is looked at for its order. -/
def Orders (order : Option (String × Bool)) (view : Nat → String → Val ρ) (S : Nat → Prop)
    (fm : Family) : Prop :=
  fm ≠ .nan ∧ ∀ o, order = some o → ∀ oid, S oid →
    view oid o.1 = .none ∨ ∃ s, view oid o.1 = .scalar s ∧ s.key.family = fm

omit [DecidableEq ρ] in
theorem Orders.key {order : Option (String × Bool)} {view : Nat → String → Val ρ}
    {S : Nat → Prop} {fm : Family} (h : Orders order view S fm) {oid : Nat} (hoid : S oid) {k : Key}
    (hk : orderedBy order view oid = some k) : k.family = fm := by
  cases order with
  | none => cases hk
  | some o =>
      rw [orderedBy, Option.bind_some] at hk
      rcases h.2 o rfl oid hoid with hnone | ⟨s, hs, hfam⟩
      · rw [hnone] at hk
        cases hk
      · rw [hs, Val.orderKey, Option.some.injEq] at hk
        rw [← hk]
        exact hfam

omit [DecidableEq ρ] in
/-- There is one listing of a set of rows. -/
theorem listing_unique {order : Option (String × Bool)} {view : Nat → String → Val ρ}
    {S : Nat → Prop} {fm : Family} (hord : Orders order view S fm) {xs ys : List Nat}
    (hxs : Listing order view S xs) (hys : Listing order view S ys) : xs = ys :=
  arranged_ext (Key.orderedOn_family fm hord.1) (fun _ _ hab => Nat.lt_asymm hab)
    (fun _ ha _ hk => hord.key ((hxs.mem _).mp ha) hk) hxs.arranged hys.arranged
    fun a => (hxs.mem a).trans (hys.mem a).symm

omit [DecidableEq ρ] in
theorem Listing.nodup {order : Option (String × Bool)} {view : Nat → String → Val ρ}
    {S : Nat → Prop} {fm : Family} (hord : Orders order view S fm) {xs : List Nat}
    (hxs : Listing order view S xs) : xs.Nodup :=
  arranged_nodup (Key.orderedOn_family fm hord.1) (fun _ _ hab => Nat.lt_asymm hab)
    (fun _ ha _ hk => hord.key ((hxs.mem _).mp ha) hk) hxs.arranged

section Spec

variable {fam : String → Family} {ti : TypeInfo} {rows : Rows} {lost : Lost} {ci : ClassIndexes}
  {view : Nat → String → Val ρ} {labels : Nat → Labels} {p : Principal}

/-- An index that a read can rely on: it stands for rows of which `view` gives
    the values, and which carry labels if the class is protected. -/
structure Readies (fam : String → Family) (ti : TypeInfo) (rows : Rows) (lost : Lost)
    (view : Nat → String → Val ρ) (labels : Nat → Labels) (ci : ClassIndexes) : Prop where
  represents : Represents ti rows lost ci
  sound : Sound fam ci
  done : ci.building = false
  views : Views ti rows view
  named : ∀ f k n, lost f k n → ∀ m, ci.holder f k = some m → m ≠ n
  labelled : ti.isProtected = true →
    fam "_dc_read_floor" = .number ∧ LabelledRows rows labels

/-- The operands of a condition hash and compare where they have to: in the lookups
    of the plan, and on every row for what is left to evaluate. -/
structure Evaluable (fam : String → Family) (ti : TypeInfo) (rows : Rows)
    (view : Nat → String → Val ρ) (c : Cond ρ) : Prop where
  admissible : Admissible fam ti c.tests
  answers : ∀ oid, (rows oid).isSome → c.Answers (view oid)

/-- The residual of a plan answers on every row. -/
def Residual (rows : Rows) (view : Nat → String → Val ρ) (residual : Option (Cond ρ)) : Prop :=
  ∀ c, residual = some c → ∀ oid, (rows oid).isSome → ∃ b, c.evaluate (view oid) = .ok b

/-- Whether a residual holds on a row. -/
def passes (residual : Option (Cond ρ)) (row : String → Val ρ) : Bool :=
  match residual with
  | none => true
  | some c => decide (c.evaluate row = .ok true)

/-- Candidates and a residual leave some rows: those of the candidates that pass the
    residual. It answers on every row, since a read evaluates it on all the
    candidates. -/
structure Leaves (rows : Rows) (view : Nat → String → Val ρ) (S : Nat → Prop)
    (candidate : Finset Nat) (residual : Option (Cond ρ)) : Prop where
  bounded : ∀ oid ∈ candidate, (rows oid).isSome
  answers : Residual rows view residual
  mem : ∀ oid, (oid ∈ candidate ∧ passes residual (view oid) = true) ↔ S oid

theorem passes_iff {residual : Option (Cond ρ)} {row : String → Val ρ} :
    passes residual row = true ↔ ∀ c, residual = some c → c.evaluate row = .ok true := by
  cases residual with
  | none => simp [passes]
  | some c => simp [passes]

/-- What a plan leaves, whoever asks. -/
theorem planOf_spec (h : Readies fam ti rows lost view labels ci) (cond : Option (Cond ρ))
    (heval : ∀ c, cond = some c → Evaluable fam ti rows view c) :
    ∃ planned, planOf ci cond = .ok planned ∧
      Leaves rows view (fun oid => (rows oid).isSome ∧
        ∀ c, cond = some c → Kept ti rows lost view oid c) (planned.1.getD ci.extent) planned.2 := by
  cases cond with
  | none =>
      refine ⟨(none, none), rfl, fun oid hoid => (h.represents.extent oid).mp hoid, ?_, fun oid => ?_⟩
      · intro c hc
        cases hc
      · rw [Option.getD_none, h.represents.extent]
        simp [passes]
  | some c =>
      have hc := heval c rfl
      rcases plan_spec h.represents h.sound h.done h.views h.named c hc.admissible hc.answers with
        ⟨planned, hrun, hp⟩
      refine ⟨planned, hrun, fun oid hoid => ?_, fun r hr oid hrow => ?_, fun oid => ?_⟩
      · cases hbm : planned.1 with
        | none =>
            rw [hbm, Option.getD_none] at hoid
            exact (h.represents.extent oid).mp hoid
        | some bm =>
            rw [hbm, Option.getD_some] at hoid
            exact hp.bounded bm hbm oid hoid
      · exact Cond.evaluate_ok _ r fun e he => hc.answers oid hrow e (hp.tests r hr e he)
      · rw [passes_iff]
        refine (selected_iff h.represents.extent hp oid).trans ?_
        simp

/-- The candidates that pass the residual are the rows the read is about. -/
theorem candidates_spec (h : Readies fam ti rows lost view labels ci) (cond : Option (Cond ρ))
    (heval : ∀ c, cond = some c → Evaluable fam ti rows view c) (p : Principal) :
    ∃ candidate residual, candidates ti ci cond p = .ok (candidate, residual) ∧
      Leaves rows view (Matching ti rows lost view labels p cond) candidate residual := by
  rcases planOf_spec h cond heval with ⟨planned, hrun, hleaves⟩
  -- A match is a candidate that passes, and that may be read.
  have hmatch : ∀ oid, Matching ti rows lost view labels p cond oid ↔
      (oid ∈ planned.1.getD ci.extent ∧ passes planned.2 (view oid) = true) ∧
        (ti.isProtected = true → isRoot p = true ∨ isOwner p (labels oid).owner = true ∨
          ∃ g ∈ (labels oid).groups, Held p g ∧ (labels oid).readFloor ≤ level p g) := by
    intro oid
    rw [hleaves.mem]
    exact ⟨fun hm => ⟨⟨hm.row, hm.kept⟩, hm.readable⟩, fun hm => ⟨hm.1.1, hm.1.2, hm.2⟩⟩
  unfold candidates
  rw [hrun]
  by_cases hprot : ti.isProtected = true
  -- Root: the fence is the extent.
  · by_cases hroot : isRoot p = true
    · refine ⟨planned.1.getD ci.extent, planned.2, ?_, hleaves.bounded, hleaves.answers,
        fun oid => ?_⟩
      · simp [Bind.bind, Except.bind, hprot, readableBitmap, hroot]
      · rw [hmatch]
        simp [hroot]
    -- Anyone else: the candidates are met with the readable rows.
    · rcases h.labelled hprot with ⟨hfloor, hlab⟩
      rcases readableBitmap_spec h.represents h.sound h.done hprot hfloor hlab p
        (by simpa using hroot) with ⟨rb, hrb, hmem⟩
      refine ⟨planned.1.getD ci.extent ∩ rb, planned.2, ?_, fun oid hoid => ?_, hleaves.answers,
        fun oid => ?_⟩
      · simp [Bind.bind, Except.bind, hprot, hrb]
      · exact hleaves.bounded oid (Finset.mem_inter.mp hoid).1
      · rw [hmatch, Finset.mem_inter, hmem]
        constructor
        · rintro ⟨⟨hoid, -, hread⟩, hr⟩
          exact ⟨⟨hoid, hr⟩, fun _ => Or.inr hread⟩
        · rintro ⟨⟨hoid, hr⟩, hread⟩
          exact ⟨⟨hoid, hleaves.bounded oid hoid, (hread hprot).resolve_left hroot⟩, hr⟩
  · refine ⟨planned.1.getD ci.extent, planned.2, ?_, hleaves.bounded, hleaves.answers,
      fun oid => ?_⟩
    · simp [Bind.bind, Except.bind, hprot]
    · rw [hmatch]
      simp [hprot]

/-- What a read is handed decodes the rows of a class and keeps those on which
    the residual holds. -/
def Selects (rows : Rows) (view : Nat → String → Val ρ) (get : Nat → β)
    (select : Option (Cond ρ) → List Nat → Except (ReadErr ε) (List β)) : Prop :=
  ∀ residual oids, (∀ oid ∈ oids, (rows oid).isSome) → Residual rows view residual →
    select residual oids = .ok ((oids.filter fun oid => passes residual (view oid)).map get)

/-- The selected OIDs by ascending OID. -/
def keptOids (view : Nat → String → Val ρ) (candidate : Finset Nat)
    (residual : Option (Cond ρ)) : List Nat :=
  (oidsOf candidate).filter fun oid => passes residual (view oid)

section Leaves

variable {S : Nat → Prop} {candidate : Finset Nat} {residual : Option (Cond ρ)} {get : Nat → β}
  {select : Option (Cond ρ) → List Nat → Except (ReadErr ε) (List β)}

omit [DecidableEq ρ] in
/-- The listing without an order. -/
theorem listing_ascending {view : Nat → String → Val ρ} {xs : List Nat}
    (hmem : ∀ oid, oid ∈ xs ↔ S oid) (hasc : xs.Pairwise (· < ·)) : Listing none view S xs := by
  refine ⟨hmem, hasc.imp fun {a b} hab => ?_⟩
  simp only [Precedes, orderedBy, Option.bind_none]
  exact hab

theorem Leaves.mem_keptOids (h : Leaves rows view S candidate residual) (oid : Nat) :
    oid ∈ keptOids view candidate residual ↔ S oid := by
  rw [keptOids, List.mem_filter, mem_oidsOf, h.mem]

theorem Leaves.row (h : Leaves rows view S candidate residual) {oid : Nat} (hoid : S oid) :
    (rows oid).isSome :=
  h.bounded oid ((h.mem oid).mpr hoid).1

theorem keptOids_ascending (view : Nat → String → Val ρ) (candidate : Finset Nat)
    (residual : Option (Cond ρ)) : (keptOids view candidate residual).Pairwise (· < ·) :=
  (oidsOf_ascending candidate).filter _

theorem Leaves.selected (h : Leaves rows view S candidate residual)
    (hselect : Selects rows view get select) :
    select residual (oidsOf candidate) = .ok ((keptOids view candidate residual).map get) :=
  hselect residual (oidsOf candidate) (fun oid hoid => h.bounded oid (mem_oidsOf.mp hoid)) h.answers

omit [DecidableEq ρ] in
theorem Selects.plain [DecidableEq ρ] (hselect : Selects rows view get select) {oids : List Nat}
    (hoids : ∀ oid ∈ oids, (rows oid).isSome) : select none oids = .ok (oids.map get) := by
  rw [hselect none oids hoids fun c hc => by cases hc]
  simp [passes]

/-- Rows that are decoded by ascending OID and sorted are listed. -/
theorem Leaves.sorted (h : Leaves rows view S candidate residual) {oidOf : β → Nat}
    {attr : β → String → Val ρ}
    (hget : ∀ oid, (rows oid).isSome → oidOf (get oid) = oid ∧ attr (get oid) = view oid)
    {f : String} {desc : Bool} {fm : Family} (hord : Orders (some (f, desc)) view S fm) :
    ∃ xs, orderByValue (fun row => attr row f) desc ((keptOids view candidate residual).map get) =
        .ok (xs.map get) ∧ Listing (some (f, desc)) view S xs := by
  -- A decoded row names its OID and shows the view of it, so sorting the rows sorts the OIDs.
  have hback : ∀ row ∈ (keptOids view candidate residual).map get,
      S (oidOf row) ∧ attr row = view (oidOf row) ∧ row = get (oidOf row) := by
    intro row hrow
    rcases List.mem_map.mp hrow with ⟨oid, hoid, rfl⟩
    have hS := (h.mem_keptOids oid).mp hoid
    rcases hget oid (h.row hS) with ⟨ho, ha⟩
    rw [ho]
    exact ⟨hS, ha, rfl⟩
  -- The rows come in ascending OIDs, which is the order a stable sort keeps among equals.
  have hpair : ((keptOids view candidate residual).map get).Pairwise
      fun a b => oidOf a < oidOf b := by
    rw [List.pairwise_map]
    refine List.Pairwise.imp_of_mem ?_ (keptOids_ascending view candidate residual)
    intro a b ha hb hab
    rw [(hget a (h.row ((h.mem_keptOids a).mp ha))).1,
      (hget b (h.row ((h.mem_keptOids b).mp hb))).1]
    exact hab
  have hvalues : ∀ row ∈ (keptOids view candidate residual).map get,
      attr row f = .none ∨ ∃ s, attr row f = .scalar s ∧ s.key.family = fm := by
    intro row hrow
    rcases hback row hrow with ⟨hS, ha, -⟩
    rw [ha]
    exact hord.2 (f, desc) rfl (oidOf row) hS
  rcases orderByValue_spec hord.1 hpair hvalues desc with ⟨ys, hsort, harr, hperm⟩
  have hys : ∀ row ∈ ys, attr row = view (oidOf row) ∧ row = get (oidOf row) :=
    fun row hrow => (hback row (hperm.mem_iff.mp hrow)).2
  -- The OIDs of the sorted rows are the listing.
  have hmap : (ys.map oidOf).map get = ys := by
    rw [List.map_map]
    exact (List.map_congr_left fun row hrow => ((hys row hrow).2).symm).trans (List.map_id ys)
  refine ⟨ys.map oidOf, by rw [hmap]; exact hsort, fun oid => ?_, ?_⟩
  · rw [List.mem_map]
    constructor
    · rintro ⟨row, hrow, rfl⟩
      exact (hback row (hperm.mem_iff.mp hrow)).1
    · intro hoid
      exact ⟨get oid, hperm.mem_iff.mpr (List.mem_map_of_mem ((h.mem_keptOids oid).mpr hoid)),
        (hget oid (h.row hoid)).1⟩
  · rw [Arranged, List.pairwise_map]
    refine List.Pairwise.imp_of_mem ?_ harr
    intro a b ha hb hab
    simp only [Precedes, (hys a ha).1, (hys b hb).1] at hab
    simp only [Precedes, orderedBy, Option.bind_some, Option.elim_some]
    exact hab

end Leaves

/-- A read returns the window of the listing of its rows. -/
theorem readWindow_spec (h : Readies fam ti rows lost view labels ci) {cond : Option (Cond ρ)}
    (heval : ∀ c, cond = some c → Evaluable fam ti rows view c) (p : Principal)
    {get : Nat → β} (oidOf : β → Nat) (attr : β → String → Val ρ)
    {select : Option (Cond ρ) → List Nat → Except (ReadErr ε) (List β)}
    (hselect : Selects rows view get select)
    (hget : ∀ oid, (rows oid).isSome → oidOf (get oid) = oid ∧ attr (get oid) = view oid)
    {order : Option (String × Bool)} {fm : Family}
    (hord : Orders order view (Matching ti rows lost view labels p cond) fm)
    (hcomp : ∀ o, order = some o → o.1 ∈ ti.eqIndexFields →
      o.1 ∉ ti.listFields ∧ Comparable ci o.1 fm) (w : Window) :
    ∃ candidate residual xs, candidates ti ci cond p = .ok (candidate, residual) ∧
      Listing order view (Matching ti rows lost view labels p cond) xs ∧
      readWindow ci select attr candidate residual order w =
        .ok ((applyWindow w xs).map get) := by
  rcases candidates_spec h cond heval p with ⟨candidate, residual, hcand, hleaves⟩
  refine ⟨candidate, residual, ?_⟩
  have hrows := hleaves.selected hselect
  cases order with
  -- Unordered: the candidates as they come, decoded only if something is left to test.
  | none =>
      refine ⟨keptOids view candidate residual, hcand,
        listing_ascending hleaves.mem_keptOids (keptOids_ascending _ _ _), ?_⟩
      rw [readWindow]
      by_cases hr : residual = none
      · have hkept : keptOids view candidate residual = oidsOf candidate := by
          rw [keptOids, hr]
          simp [passes]
        rw [hkept, hr, windowIter_eq]
        exact hselect.plain fun oid hoid =>
          hleaves.bounded oid (mem_oidsOf.mp (mem_of_mem_applyWindow hoid))
      · simp only [Option.isNone_iff_eq_none, hr, if_false, hrows]
        simp only [Bind.bind, Except.bind, applyWindow_map]
  | some o =>
      rcases o with ⟨f, desc⟩
      rw [readWindow]
      by_cases hfast : residual = none ∧ f ∈ ci.eq.keys
      · -- The order is read off the postings.
        have hf : f ∈ ti.eqIndexFields := (h.represents.eqKeys f).mp hfast.2
        rcases hcomp (f, desc) rfl hf with ⟨hl, hc⟩
        rcases orderViaIndex_spec h.represents h.sound h.done h.views hf hl hc hleaves.bounded desc
          with ⟨xs, hrun, harr, hxs⟩
        have hcontains : ci.eq.contains f = true := (Dict.contains_iff _ _).mpr hfast.2
        refine ⟨xs, hcand, ⟨fun oid => ?_, harr⟩, ?_⟩
        · rw [hxs, ← hleaves.mem, hfast.1]
          simp [passes]
        · simp only [hfast.1, Option.isNone_none, hcontains, Bool.and_self, if_true,
            windowedIndexOrder_eq, hrun, comparing, Except.map, Except.mapError, Bind.bind,
            Except.bind]
          exact hselect.plain fun oid hoid =>
            hleaves.bounded oid ((hxs oid).mp (mem_of_mem_applyWindow hoid))
      · -- The rows are decoded and sorted.
        have hslow : (residual.isNone && ci.eq.contains f) = false := by
          rw [Bool.eq_false_iff]
          intro hc
          rw [Bool.and_eq_true, Option.isNone_iff_eq_none, Dict.contains_iff] at hc
          exact hfast hc
        rcases hleaves.sorted hget hord with ⟨xs, hsort, hlist⟩
        refine ⟨xs, hcand, hlist, ?_⟩
        simp only [hslow, Bool.false_eq_true, if_false, hrows, hsort, comparing, Except.mapError,
          Bind.bind, Except.bind, applyWindow_map]

/-- What is counted is the listing. -/
theorem countSelected_spec (h : Readies fam ti rows lost view labels ci) {get : Nat → β}
    {select : Option (Cond ρ) → List Nat → Except (ReadErr ε) (List β)}
    (hselect : Selects rows view get select) {cond : Option (Cond ρ)}
    (heval : ∀ c, cond = some c → Evaluable fam ti rows view c) {xs : List Nat}
    (hnodup : xs.Nodup) (hmem : ∀ oid, oid ∈ xs ↔ Matching ti rows lost view labels p cond oid) :
    countSelected ti ci p cond select = .ok xs.length := by
  rcases candidates_spec h cond heval p with ⟨candidate, residual, hcand, hleaves⟩
  -- What is selected is what matches, each once.
  have hlen : (keptOids view candidate residual).length = xs.length := by
    refine List.Perm.length_eq ((List.perm_ext_iff_of_nodup ?_ hnodup).mpr fun oid => ?_)
    · exact (Finset.sort_nodup _ _).filter _
    · rw [hleaves.mem_keptOids, hmem]
  have hplain : residual = none → candidate.card = xs.length := by
    intro hr
    rw [← hlen, keptOids, hr]
    simp [passes, oidsOf]
  -- Without a condition the count is read off the bitmap, or off the extent of the class.
  cases cond with
  | none =>
      unfold candidates planOf at hcand
      rw [countSelected]
      by_cases hprot : ti.isProtected = true
      · rw [if_pos hprot]
        simp only [hprot, if_true, Bind.bind, Except.bind, Option.getD_none] at hcand ⊢
        by_cases hroot : isRoot p = true
        · have hread : readableBitmap p ci = .ok none := by rw [readableBitmap, if_pos hroot]
          rw [hread] at hcand ⊢
          cases hcand
          simp only [comparing, Except.mapError, Option.map_none, Option.getD_none, hplain rfl]
        · -- What may be read is part of the extent.
          rcases h.labelled hprot with ⟨hnum, hlab⟩
          rcases readableBitmap_spec h.represents h.sound h.done hprot hnum hlab p
            (by simpa using hroot) with ⟨rb, hread, hrb⟩
          rw [hread] at hcand ⊢
          cases hcand
          have hsub : rb ⊆ ci.extent := fun oid hoid =>
            (h.represents.extent oid).mpr ((hrb oid).mp hoid).1
          rw [Finset.inter_eq_right.mpr hsub] at hplain
          simp only [comparing, Except.mapError, Option.map_some, Option.getD_some, hplain rfl]
      · rw [if_neg hprot]
        simp only [hprot, if_false, Bind.bind, Except.bind, Option.getD_none, Bool.false_eq_true]
          at hcand
        cases hcand
        rw [hplain rfl]
  | some d =>
      rw [countSelected]
      simp only [hcand, comparing, Except.mapError, Bind.bind, Except.bind]
      by_cases hr : residual = none
      -- An exact bitmap is counted without decoding a row.
      · simp [hr, hplain hr]
      · have hrows := hleaves.selected hselect
        simp [hr, hrows, hlen]

end Spec

end Reads

end DataCrystal
