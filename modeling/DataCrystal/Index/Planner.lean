import DataCrystal.Index.Build

/-!
# The Planner

`plan` splits a condition into a bitmap of candidates and a residual that is
evaluated on each of them. The rules are three. An equality, a membership or a
string match on an indexed field answers from postings; an ordering comparison
on a sorted field answers from a slice of its run; everything else is left to
evaluation. A conjunction combines bitmaps and residuals separately, a
disjunction is indexed only if every branch is, and a negation never is.

A field that is unique and carries no other marker has no postings. It answers
from the unique map, which knows neither the rows holding `None` nor a row
whose key a later row took over. Such a row is lost to a lookup on that field
although evaluation finds it: `Kept` follows the planner's rules and says which
of the rows a condition holds on survive them.

The rows are given by a view, a value for every field of every OID, whose
maintained fields have the keys the index stands for. Any representation of the
records that agrees with the index on keys is such a view.

## Main definitions

* `rangeSlice`: The OIDs whose sorted key passes an ordering test.
* `planPred`, `plan`: The planner.
* `Selected`: The OIDs a plan returns.
* `coverage`: Whether a plan has a bitmap, and whether it has no residual.
* `Kept`: A condition holds on a row, and no lookup loses the row.

## Theorems

* `rangeSlice_spec`: A slice of a sorted run answers an ordering test.
* `planEqIndexed_spec`: A predicate on a field with postings.
* `planUniqueOnly_spec`: A predicate on a field that is unique only.
* `planPred_spec`: The plan of a leaf predicate selects the rows it keeps.
-/

namespace DataCrystal

open ClassIndexes

variable {ρ : Type}

/-- The union of the postings of a run of keys. -/
def postingsOf (ci : ClassIndexes) (f : String) (keys : List Key) : Finset Nat :=
  keys.foldl (fun acc k => acc ∪ ci.posting f (some k)) ∅

/-- The keys of a sorted run that pass an ordering test against a key. -/
def runSlice (op : OrdOp) (decimals : Key → Bool) (run : List Key) (k : Key) :
    Except ValueErr (List Key) :=
  match op with
  -- The first key not below it, and all behind.
  | .ge => (bisectLeft (Key.ltOf decimals) run k).map fun lo => run.drop lo
  -- Behind the keys equal to it.
  | .gt => (bisectRight (Key.ltOf decimals) run k).map fun lo => run.drop lo
  | .le => (bisectRight (Key.ltOf decimals) run k).map fun hi => run.take hi
  | .lt => (bisectLeft (Key.ltOf decimals) run k).map fun hi => run.take hi

/-- The objects a search for a bound compares: the keys of the run, and the
    bound. -/
def searched (ci : ClassIndexes) (f : String) (s : Scalar) : Key → Bool :=
  Function.update (ci.decimals f) s.key s.isDecimal

/-- The OIDs whose sorted key passes an ordering test. `None` is in no run, and
    a `None` bound matches nothing. -/
def rangeSlice (ci : ClassIndexes) (f : String) (op : OrdOp) (value : Val ρ) :
    Except ValueErr (Finset Nat) :=
  match value with
  | .none => .ok ∅
  | .scalar s => (runSlice op (searched ci f s) (ci.run f) s.key).map (postingsOf ci f)
  -- A list or a dictionary compares with no key, but an empty run is never asked.
  | _ => if (ci.run f).isEmpty then .ok ∅ else .error .typeError

/-- What a plan consists of: a bitmap of candidates, if any predicate answers
    from an index, and the condition left to evaluate. -/
abbrev Planned (ρ : Type) := Option (Finset Nat) × Option (Cond ρ)

/-- The postings of a value looked up as a key. -/
def lookupPosting (ci : ClassIndexes) (f : String) (v : Val ρ) : Except ValueErr (Finset Nat) :=
  v.lookupKey.map fun key => (key.map (ci.posting f)).getD ∅

/-- The holder of a value looked up as a unique key. -/
def lookupHolder (ci : ClassIndexes) (f : String) (v : Val ρ) : Except ValueErr (Finset Nat) :=
  v.lookupKey.map fun key =>
    match (key.bind id).bind (ci.holder f) with
    | some oid => {oid}
    | none => ∅

/-- The union of the lookups of several values. -/
def lookupAll (lookup : Val ρ → Except ValueErr (Finset Nat)) :
    List (Val ρ) → Except ValueErr (Finset Nat)
  | [] => .ok ∅
  | v :: vs =>
    match lookup v with
    | .error e => .error e
    | .ok s => (lookupAll lookup vs).map fun t => s ∪ t

/-- A string key that passes a string match; other keys never do. -/
def matchesStringKey (matcher : String → Bool) : Key → Bool
  | .str s => matcher s
  | _ => false

/-- The postings of the keys that pass a string match. -/
def matchPostings (ci : ClassIndexes) (f : String) (matcher : String → Bool) : Finset Nat :=
  postingsOf ci f ((ci.distinctKeys f).filter (matchesStringKey matcher))

/-- The holders of the keys that pass a string match. -/
def matchHolders (ci : ClassIndexes) (f : String) (matcher : String → Bool) : Finset Nat :=
  match ci.unique.get? f with
  | none => ∅
  | some m => ((m.entries.filter fun e => matchesStringKey matcher e.1).map Prod.snd).toFinset

/-- An inverted field answers element containment and nothing else. -/
def planListField (f : String) (t : Test ρ) (ci : ClassIndexes) : Planned ρ :=
  match t with
  | .contains needle => (some (ci.posting f (some (.str needle))), none)
  | _ => (none, some (.pred f t))

/-- A predicate from the postings of an indexed or sorted field, or `none`. -/
def planEqIndexed (f : String) (t : Test ρ) (ci : ClassIndexes) :
    Except ValueErr (Option (Planned ρ)) :=
  match t with
  -- A sorted run answers every ordering, a hash posting answers none.
  | .ord op value =>
    if ci.sortedFields.contains f then
      (rangeSlice ci f op value).map fun bm => some (some bm, none)
    else if ci.listFields.contains f then .ok (some (planListField f t ci))
    else .ok none
  | _ =>
    -- A row is under each of its elements, so equality is containment.
    if ci.listFields.contains f then .ok (some (planListField f t ci))
    else
      match t with
      | .eq v => (lookupPosting ci f v).map fun bm => some (some bm, none)
      | .isIn vs => (lookupAll (lookupPosting ci f) vs).map fun bm => some (some bm, none)
      | .contains needle => .ok (some (some (matchPostings ci f (containsString needle)), none))
      | .startswith needle =>
        .ok (some (some (matchPostings ci f (startsWithString needle)), none))
      -- An inequality is left to the rows themselves.
      | _ => .ok none

/-- A predicate from the map of a field that is unique only, or `none`. -/
def planUniqueOnly (f : String) (t : Test ρ) (ci : ClassIndexes) :
    Except ValueErr (Option (Planned ρ)) :=
  match t with
  | .eq v => (lookupHolder ci f v).map fun bm => some (some bm, none)
  | .isIn vs => (lookupAll (lookupHolder ci f) vs).map fun bm => some (some bm, none)
  | .contains needle => .ok (some (some (matchHolders ci f (containsString needle)), none))
  | .startswith needle => .ok (some (some (matchHolders ci f (startsWithString needle)), none))
  | _ => .ok none

/-- The plan of a leaf predicate. -/
def planPred (f : String) (t : Test ρ) (ci : ClassIndexes) : Except ValueErr (Planned ρ) :=
  match if ci.eq.contains f then planEqIndexed f t ci else .ok none with
  | .error e => .error e
  | .ok (some planned) => .ok planned
  | .ok none =>
    -- An index on the values comes before the unique keys.
    match if ci.unique.contains f then planUniqueOnly f t ci else .ok none with
    | .error e => .error e
    | .ok (some planned) => .ok planned
    -- Nothing to look it up in: the predicate stays.
    | .ok none => .ok (none, some (.pred f t))

/-- The bitmap of a conjunction: the parts that have one, intersected. -/
def meetBitmaps : List (Option (Finset Nat)) → Option (Finset Nat)
  | [] => none
  -- A part without a bitmap narrows nothing.
  | none :: bms => meetBitmaps bms
  | some b :: bms =>
    match meetBitmaps bms with
    | none => some b
    | some c => some (b ∩ c)

/-- The residual of a conjunction: what its parts leave, as one condition. -/
def joinResiduals : List (Cond ρ) → Option (Cond ρ)
  | [] => none
  | [c] => some c
  | cs => some (.and cs)

/-- The plan of a condition. -/
def plan (ci : ClassIndexes) : Cond ρ → Except ValueErr (Planned ρ)
  | .pred f t => planPred f t ci
  -- Each part narrows the rows, what is left of it is asked of them.
  | .and parts =>
    (planAll parts).map fun ps =>
      (meetBitmaps (ps.map Prod.fst), joinResiduals (ps.filterMap Prod.snd))
  -- One branch that is not indexed leaves the whole of it to the rows.
  | .or parts =>
    (planBranches parts).map fun bms =>
      match bms with
      | some bms => (some (bms.foldl (fun acc bm => acc ∪ bm) ∅), none)
      | none => (none, some (.or parts))
  | .not part => .ok (none, some (.not part))
where
  planAll : List (Cond ρ) → Except ValueErr (List (Planned ρ))
    | [] => .ok []
    | c :: cs =>
      match plan ci c with
      | .error e => .error e
      | .ok p => (planAll cs).map fun ps => p :: ps
  /-- The bitmaps of the branches, or `none` at the first branch that is not
      fully indexed. -/
  planBranches : List (Cond ρ) → Except ValueErr (Option (List (Finset Nat)))
    | [] => .ok (some [])
    | c :: cs =>
      match plan ci c with
      | .error e => .error e
      | .ok (some bm, none) => (planBranches cs).map fun bms => bms.map fun bms => bm :: bms
      | .ok _ => .ok none

/-- The OIDs a plan returns: its bitmap, or the extent without one, filtered by
    its residual. -/
def Selected [DecidableEq ρ] (ci : ClassIndexes) (view : Nat → String → Val ρ)
    (planned : Planned ρ) (oid : Nat) : Prop :=
  oid ∈ planned.1.getD ci.extent ∧
    ∀ c, planned.2 = some c → c.evaluate (view oid) = .ok true

/-- The tests a unique map can answer. -/
def Test.isLookup : Test ρ → Bool
  | .ne _ => false
  | .ord _ _ => false
  | _ => true

/-- Whether a predicate answers from an index. -/
def answered (ti : TypeInfo) (f : String) (t : Test ρ) : Bool :=
  if ti.eqIndexFields.contains f then
    match t with
    -- `!=` is never looked up.
    | .ne _ => false
    | .ord _ _ => ti.sortedFields.contains f
    | .contains _ => true
    | _ => !ti.listFields.contains f
  else ti.uniqueFields.contains f && t.isLookup

/-- Whether the plan of a condition has a bitmap, and whether it has no
    residual. The two differ in a conjunction only. -/
def coverage (ti : TypeInfo) : Cond ρ → Bool × Bool
  | .pred f t => (answered ti f t, answered ti f t)
  | .and parts => meet parts
  | .or parts => (branches parts, branches parts)
  | .not _ => (false, false)
where
  meet : List (Cond ρ) → Bool × Bool
    | [] => (false, true)
    | c :: cs => ((coverage ti c).1 || (meet cs).1, (coverage ti c).2 && (meet cs).2)
  /-- Every branch has a bitmap and no residual. -/
  branches : List (Cond ρ) → Bool
    | [] => true
    | c :: cs => (coverage ti c).1 && (coverage ti c).2 && branches cs

/-- A lookup on a field that is unique only does not find the row: the row
    holds `None` there, or a key it has lost. -/
def LosesRow (ti : TypeInfo) (rows : Rows) (lost : Lost) (oid : Nat) (f : String)
    (t : Test ρ) : Prop :=
  f ∉ ti.eqIndexFields ∧ f ∈ ti.uniqueFields ∧ t.isLookup = true ∧
    ∀ k, some k ∈ recalled (rows oid) f → lost f k oid

/-- A condition holds on a row, and none of the lookups it is answered by loses
    the row. -/
def Kept [DecidableEq ρ] (ti : TypeInfo) (rows : Rows) (lost : Lost)
    (view : Nat → String → Val ρ) (oid : Nat) : Cond ρ → Prop
  | .pred f t =>
    t.evaluate (view oid f) = .ok true ∧ ¬LosesRow ti rows lost oid f t
  | .and parts => keptAll parts
  -- Indexed in every branch: one branch that keeps the row is enough.
  | .or parts =>
    if coverage.branches ti parts then keptAny parts
    else (Cond.or parts).evaluate (view oid) = .ok true
  | .not part => (Cond.not part).evaluate (view oid) = .ok true
where
  keptAll : List (Cond ρ) → Prop
    | [] => True
    | c :: cs => Kept ti rows lost view oid c ∧ keptAll cs
  keptAny : List (Cond ρ) → Prop
    | [] => False
    | c :: cs => Kept ti rows lost view oid c ∨ keptAny cs

section Values

theorem isNan_iff (s : Scalar) : s.isNan = true ↔ s.key.family = .nan := by
  cases s with
  | num kind n => cases n <;> simp [Scalar.isNan, Scalar.key, Key.family]
  | str s => simp [Scalar.isNan, Scalar.key, Key.family]
  | bytes b => simp [Scalar.isNan, Scalar.key, Key.family]
  | temporal kind t => simp [Scalar.isNan, Scalar.key, Key.family]

theorem family_ne_nan {s : Scalar} (hs : s.isNan = false) : s.key.family ≠ .nan := by
  intro hc
  rw [(isNan_iff s).mpr hc] at hs
  cases hs

/-- A value indexed as a scalar is `None` or a scalar. -/
theorem indexKeys_scalar {v : Val ρ} {ks : List (Option Key)} (h : v.indexKeys false = .ok ks) :
    (v = .none ∧ ks = [none]) ∨ ∃ s, v = .scalar s ∧ ks = [some s.key] := by
  cases v with
  | none =>
      simp only [Val.indexKeys, Val.scalarKey, Except.map, Bool.false_eq_true, if_false,
        Except.ok.injEq] at h
      exact Or.inl ⟨rfl, h.symm⟩
  | scalar s =>
      simp only [Val.indexKeys, Val.scalarKey, Except.map, Bool.false_eq_true, if_false,
        Except.ok.injEq] at h
      exact Or.inr ⟨s, rfl, h.symm⟩
  | leaf r => simp [Val.indexKeys, Val.scalarKey, Except.map] at h
  | seq k xs => simp [Val.indexKeys, Val.scalarKey, Except.map] at h
  | dict xs => simp [Val.indexKeys, Val.scalarKey, Except.map] at h

theorem mem_mapM_scalarKey {items : List (Val ρ)} :
    ∀ {ks : List (Option Key)}, items.mapM Val.scalarKey = .ok ks →
      ∀ k, k ∈ ks ↔ ∃ v ∈ items, v.scalarKey = .ok k := by
  induction items with
  | nil =>
      intro ks h k
      rw [List.mapM_nil] at h
      cases h
      simp
  | cons v items ih =>
      intro ks h k
      rw [List.mapM_cons] at h
      cases hv : v.scalarKey with
      | error e => rw [hv] at h; simp [bind, Except.bind] at h
      | ok j =>
          cases hrest : items.mapM Val.scalarKey with
          | error e => rw [hv, hrest] at h; simp [bind, Except.bind] at h
          | ok js =>
              rw [hv, hrest] at h
              simp only [bind, Except.bind, pure, Except.pure, Except.ok.injEq] at h
              rw [← h, List.mem_cons, ih hrest]
              simp only [List.mem_cons, exists_eq_or_imp, hv, Except.ok.injEq]
              rw [eq_comm]

/-- A value indexed as a list is `None` or a sequence of scalars. -/
theorem indexKeys_list {v : Val ρ} {ks : List (Option Key)} (h : v.indexKeys true = .ok ks) :
    (v = .none ∧ ks = []) ∨
      ∃ kind items, v = .seq kind items ∧ ∀ k, k ∈ ks ↔ ∃ w ∈ items, w.scalarKey = .ok k := by
  cases v with
  | none =>
      simp only [Val.indexKeys, if_true, Except.ok.injEq] at h
      exact Or.inl ⟨rfl, h.symm⟩
  | scalar s => simp [Val.indexKeys] at h
  | leaf r => simp [Val.indexKeys] at h
  | seq kind items =>
      simp only [Val.indexKeys, if_true] at h
      exact Or.inr ⟨kind, items, rfl, mem_mapM_scalarKey h⟩
  | dict xs => simp [Val.indexKeys] at h

/-- An ordering test between keys. -/
def keyTest (op : OrdOp) (k j : Key) : Prop :=
  match op with
  | .lt => k.lt j = .ok true
  | .le => k.lt j = .ok true ∨ k = j
  | .gt => j.lt k = .ok true
  | .ge => j.lt k = .ok true ∨ j = k

/-- Inside a family, a slice of an ascending run holds the keys that pass. -/
theorem runSlice_spec (op : OrdOp) (decimals : Key → Bool) {run : List Key} {k : Key}
    {fam : Family} (hfam : fam ≠ .nan) (hrun : ∀ j ∈ run, j.family = fam) (hk : k.family = fam)
    (hasc : Ascending Key.lt run) :
    ∃ keys, runSlice op decimals run k = .ok keys ∧ ∀ j, j ∈ keys ↔ j ∈ run ∧ keyTest op j k := by
  have hord := Key.orderedOn_family fam hfam
  -- The run and the bound are of one family, so it does not matter what the objects are.
  have hof := Key.orderedOn_ltOf decimals fam hfam
  have heq : ∀ a b : Key, a.family = fam → b.family = fam → Key.ltOf decimals a b = a.lt b :=
    fun a b => Key.ltOf_eq decimals hfam
  have hparts : ∀ (n : Nat) j, j ∈ run ↔ j ∈ run.take n ∨ j ∈ run.drop n := by
    intro n j
    rw [← List.mem_append, List.take_append_drop]
  -- What is not below but differs is above, and what is above is not below.
  have hflip : ∀ a b : Key, a.family = fam → b.family = fam →
      (a.lt b = .ok false ↔ b.lt a = .ok true ∨ b = a) := by
    intro a b ha hb
    constructor
    · intro hab
      by_cases heq : b = a
      · exact Or.inr heq
      · exact Or.inl (hord.lt_of_not_lt ha hb (fun hc => heq hc.symm) hab)
    · rintro (hba | rfl)
      · exact hord.asymm hb ha hba
      · exact hord.irrefl b hb
  have hasc' := (Key.ascending_ltOf decimals hfam hrun).mpr hasc
  rcases bisectLeft_spec hof hrun hk hasc' with ⟨n, hn, hbelow, habove⟩
  rcases bisectRight_spec hof hrun hk hasc' with ⟨m, hm, hupto, hbeyond⟩
  have htaken : ∀ (n : Nat) j, j ∈ run.take n → j.family = fam := fun n j hj =>
    hrun j (List.mem_of_mem_take hj)
  have hdropped : ∀ (n : Nat) j, j ∈ run.drop n → j.family = fam := fun n j hj =>
    hrun j (List.mem_of_mem_drop hj)
  replace hbelow : ∀ j ∈ run.take n, j.lt k = .ok true := fun j hj =>
    (heq j k (htaken n j hj) hk).symm.trans (hbelow j hj)
  replace habove : ∀ j ∈ run.drop n, j.lt k = .ok false := fun j hj =>
    (heq j k (hdropped n j hj) hk).symm.trans (habove j hj)
  replace hupto : ∀ j ∈ run.take m, k.lt j = .ok false := fun j hj =>
    (heq k j hk (htaken m j hj)).symm.trans (hupto j hj)
  replace hbeyond : ∀ j ∈ run.drop m, k.lt j = .ok true := fun j hj =>
    (heq k j hk (hdropped m j hj)).symm.trans (hbeyond j hj)
  cases op with
  | lt =>
      refine ⟨run.take n, by rw [runSlice, hn, Except.map], fun j => ?_⟩
      rw [hparts n j]
      refine ⟨fun hj => ⟨Or.inl hj, hbelow j hj⟩, fun hj => hj.1.resolve_right fun hd => ?_⟩
      have := habove j hd
      rw [keyTest, this] at hj
      exact absurd hj.2 (by simp)
  | ge =>
      refine ⟨run.drop n, by rw [runSlice, hn, Except.map], fun j => ?_⟩
      rw [hparts n j]
      constructor
      · intro hj
        have hmem := (hparts n j).mpr (Or.inr hj)
        exact ⟨Or.inr hj, (hflip j k (hrun j hmem) hk).mp (habove j hj)⟩
      · rintro ⟨hj | hj, htest⟩
        · have hmem := (hparts n j).mpr (Or.inl hj)
          have hno := (hflip j k (hrun j hmem) hk).mpr htest
          rw [hbelow j hj] at hno
          simp at hno
        · exact hj
  | le =>
      refine ⟨run.take m, by rw [runSlice, hm, Except.map], fun j => ?_⟩
      rw [hparts m j]
      constructor
      · intro hj
        have hmem := (hparts m j).mpr (Or.inl hj)
        exact ⟨Or.inl hj, (hflip k j hk (hrun j hmem)).mp (hupto j hj)⟩
      · rintro ⟨hj | hj, htest⟩
        · exact hj
        · have hmem := (hparts m j).mpr (Or.inr hj)
          have hno := (hflip k j hk (hrun j hmem)).mpr htest
          rw [hbeyond j hj] at hno
          simp at hno
  | gt =>
      refine ⟨run.drop m, by rw [runSlice, hm, Except.map], fun j => ?_⟩
      rw [hparts m j]
      refine ⟨fun hj => ⟨Or.inr hj, hbeyond j hj⟩, fun hj => hj.1.resolve_left fun ht => ?_⟩
      have := hupto j ht
      rw [keyTest, this] at hj
      exact absurd hj.2 (by simp)

theorem evaluate_ord_scalar [DecidableEq ρ] (op : OrdOp) (s t : Scalar)
    (hs : s.isNan = false) (ht : t.isNan = false) (hans : ∃ b, Test.evaluate (.ord op (.scalar t))
      (Val.scalar s : Val ρ) = .ok b) :
    Test.evaluate (.ord op (.scalar t)) (Val.scalar s : Val ρ) = .ok true ↔
      keyTest op s.key t.key := by
  rcases hans with ⟨b, hb⟩
  have hst : s.lt t = s.key.lt t.key := Scalar.lt_eq (family_ne_nan hs) (family_ne_nan ht)
  have hts : t.lt s = t.key.lt s.key := Scalar.lt_eq (family_ne_nan ht) (family_ne_nan hs)
  cases op with
  | lt =>
      change s.lt t = .ok true ↔ _
      rw [hst]
      rfl
  | gt =>
      change t.lt s = .ok true ↔ _
      rw [hts]
      rfl
  | le =>
      simp only [Test.evaluate, Test.ordered, Test.le, Val.pyLt, Val.pyEq, hs, Bool.not_false,
        Bool.and_true, hst] at hb ⊢
      cases hlt : s.key.lt t.key with
      | error e => rw [hlt] at hb; simp [Except.map] at hb
      | ok c => cases c <;> simp [Except.map, keyTest, hlt]
  | ge =>
      simp only [Test.evaluate, Test.ordered, Test.le, Val.pyLt, Val.pyEq, ht, Bool.not_false,
        Bool.and_true, hts] at hb ⊢
      cases hlt : t.key.lt s.key with
      | error e => rw [hlt] at hb; simp [Except.map] at hb
      | ok c => cases c <;> simp [Except.map, keyTest, hlt]

/-- A value that hashes is `None`, a scalar, or equal to no key at all. -/
theorem lookupKey_ok {w : Val ρ} {key : Option (Option Key)} (h : w.lookupKey = .ok key) :
    (w = .none ∧ key = some none) ∨ (∃ t, w = .scalar t ∧ key = some (some t.key)) ∨
      (key = none ∧ w ≠ .none ∧ ∀ t, w ≠ .scalar t) := by
  have hother : ∀ v : Val ρ, v ≠ .none → (∀ t, v ≠ .scalar t) →
      (if v.hashable then .ok none else .error .typeError : Except ValueErr _) = .ok key →
      key = none := by
    intro v _ _ hv
    by_cases hh : v.hashable = true
    · rw [if_pos hh, Except.ok.injEq] at hv
      exact hv.symm
    · rw [if_neg hh] at hv
      simp at hv
  cases w with
  | none =>
      rw [Val.lookupKey, Except.ok.injEq] at h
      exact Or.inl ⟨rfl, h.symm⟩
  | scalar t =>
      rw [Val.lookupKey, Except.ok.injEq] at h
      exact Or.inr (Or.inl ⟨t, rfl, h.symm⟩)
  | leaf r =>
      exact Or.inr (Or.inr ⟨hother (.leaf r) (by simp) (by simp) h, by simp, by simp⟩)
  | seq kind xs =>
      exact Or.inr (Or.inr ⟨hother (.seq kind xs) (by simp) (by simp) h, by simp, by simp⟩)
  | dict xs =>
      exact Or.inr (Or.inr ⟨hother (.dict xs) (by simp) (by simp) h, by simp, by simp⟩)

/-- On a value indexed as a scalar, sameness is lookup by key. -/
theorem same_iff_lookup [DecidableEq ρ] {v w : Val ρ} {ks : List (Option Key)}
    {key : Option (Option Key)} (hv : v.indexKeys false = .ok ks) (hw : w.lookupKey = .ok key) :
    v.same w = true ↔ ∃ k, key = some k ∧ k ∈ ks := by
  rcases indexKeys_scalar hv with ⟨rfl, rfl⟩ | ⟨s, rfl, rfl⟩
  · rcases lookupKey_ok hw with ⟨rfl, rfl⟩ | ⟨t, rfl, rfl⟩ | ⟨rfl, hnone, hscalar⟩
    · simp [Val.same]
    · simp [Val.same]
    · cases w <;> simp [Val.same] at hnone ⊢
  · rcases lookupKey_ok hw with ⟨rfl, rfl⟩ | ⟨t, rfl, rfl⟩ | ⟨rfl, hnone, hscalar⟩
    · simp [Val.same]
    · rw [Val.same_scalar_iff]
      simp [eq_comm]
    · cases w <;> simp [Val.same] at hscalar ⊢

/-- On a value indexed as a scalar that is no NaN, equality is sameness. -/
theorem pyEq_eq_same [DecidableEq ρ] {v : Val ρ} (w : Val ρ) {ks : List (Option Key)}
    (hv : v.indexKeys false = .ok ks) (hnan : ∀ k, some k ∈ ks → k.family ≠ .nan) :
    v.pyEq w = v.same w := by
  rcases indexKeys_scalar hv with ⟨rfl, rfl⟩ | ⟨s, rfl, rfl⟩
  · cases w <;> rfl
  · have hs : s.isNan = false := by
      rw [Bool.eq_false_iff]
      exact fun hc => hnan s.key (by simp) ((isNan_iff s).mp hc)
    cases w <;> simp [Val.pyEq, Val.same, hs]

/-- A lookup of several values finds what one of the lookups finds. -/
theorem lookupAll_rows {lookup : Val ρ → Except ValueErr (Finset Nat)} (vs : List (Val ρ))
    {P : Val ρ → Nat → Prop}
    (hok : ∀ v ∈ vs, ∃ s, lookup v = .ok s ∧ ∀ oid, oid ∈ s ↔ P v oid) :
    ∃ s, lookupAll lookup vs = .ok s ∧ ∀ oid, oid ∈ s ↔ ∃ v ∈ vs, P v oid := by
  induction vs with
  | nil => exact ⟨∅, rfl, by simp⟩
  | cons v vs ih =>
      rcases hok v List.mem_cons_self with ⟨s, hs, hv⟩
      rcases ih fun w hw => hok w (List.mem_cons_of_mem v hw) with ⟨t, ht, hvs⟩
      refine ⟨s ∪ t, by simp [lookupAll, hs, ht, Except.map], fun oid => ?_⟩
      rw [Finset.mem_union, hv, hvs]
      simp

theorem mem_postingsOf (ci : ClassIndexes) (f : String) (keys : List Key) (oid : Nat) :
    oid ∈ postingsOf ci f keys ↔ ∃ k ∈ keys, oid ∈ ci.posting f (some k) := by
  have hfold : ∀ acc : Finset Nat,
      oid ∈ keys.foldl (fun acc k => acc ∪ ci.posting f (some k)) acc ↔
        oid ∈ acc ∨ ∃ k ∈ keys, oid ∈ ci.posting f (some k) := by
    induction keys with
    | nil => intro acc; simp
    | cons k ks ih =>
        intro acc
        rw [List.foldl_cons, ih, Finset.mem_union]
        simp only [List.mem_cons, exists_eq_or_imp, or_assoc]
  rw [postingsOf, hfold]
  simp

theorem mem_lookupHolder (ci : ClassIndexes) (f : String) {v : Val ρ}
    {key : Option (Option Key)} (hv : v.lookupKey = .ok key) :
    ∃ s, lookupHolder ci f v = .ok s ∧
      ∀ oid, oid ∈ s ↔ ∃ k, key = some (some k) ∧ ci.holder f k = some oid := by
  refine ⟨_, by rw [lookupHolder, hv]; rfl, fun oid => ?_⟩
  rcases key with _ | _ | k
  · simp
  · simp
  · simp only [Option.bind_some, id_eq]
    cases hk : ci.holder f k with
    | none => simp [hk]
    | some n => simp [hk, eq_comm]

theorem mem_matchHolders (ci : ClassIndexes) (f : String) (matcher : String → Bool) (oid : Nat) :
    oid ∈ matchHolders ci f matcher ↔
      ∃ s, matcher s = true ∧ ci.holder f (.str s) = some oid := by
  rw [matchHolders]
  simp only [holder]
  cases ci.unique.get? f with
  | none => simp
  | some m =>
      simp only [List.mem_toFinset, List.mem_map, List.mem_filter, Option.bind_some,
        Dict.get?_eq_some_iff, Prod.exists, exists_eq_right]
      constructor
      · rintro ⟨k, hmem, hk⟩
        cases k <;> simp only [matchesStringKey, Bool.false_eq_true] at hk
        exact ⟨_, hk, hmem⟩
      · rintro ⟨s, hs, hmem⟩
        exact ⟨.str s, hmem, hs⟩

/-- A string match on a value indexed as a scalar. -/
theorem stringTest_iff {v : Val ρ} {ks : List (Option Key)} (hv : v.indexKeys false = .ok ks)
    (matcher : String → Bool) (test : Val ρ → Bool) (hstr : ∀ s, test (.scalar (.str s)) = matcher s)
    (hno : ∀ w : Val ρ, (∀ s, w ≠ .scalar (.str s)) → (∀ k xs, w ≠ .seq k xs) → test w = false) :
    test v = true ↔ ∃ s, matcher s = true ∧ some (Key.str s) ∈ ks := by
  rcases indexKeys_scalar hv with ⟨rfl, rfl⟩ | ⟨t, rfl, rfl⟩
  · rw [hno .none (by simp) (by simp)]
    simp
  · cases t with
    | str s => simp [hstr, Scalar.key]
    | num kind n =>
        rw [hno _ (by simp) (by simp)]
        cases n <;> simp [Scalar.key]
    | bytes b =>
        rw [hno _ (by simp) (by simp)]
        simp [Scalar.key]
    | temporal kind t =>
        rw [hno _ (by simp) (by simp)]
        simp [Scalar.key]

theorem containsIn_other [DecidableEq ρ] (needle : String) (w : Val ρ)
    (hstr : ∀ s, w ≠ .scalar (.str s)) (hseq : ∀ k xs, w ≠ .seq k xs) :
    Test.containsIn needle w = false := by
  cases w with
  | none => rfl
  | leaf r => rfl
  | dict xs => rfl
  | seq k xs => exact absurd rfl (hseq k xs)
  | scalar s =>
      cases s with
      | str s => exact absurd rfl (hstr s)
      | num kind n => rfl
      | bytes b => rfl
      | temporal kind t => rfl

theorem startsWithIn_other (needle : String) (w : Val ρ) (hstr : ∀ s, w ≠ .scalar (.str s))
    (hseq : ∀ k xs, w ≠ .seq k xs) : Test.startsWithIn needle w = false := by
  cases w with
  | none => rfl
  | leaf r => rfl
  | dict xs => rfl
  | seq k xs => rfl
  | scalar s =>
      cases s with
      | str s => exact absurd rfl (hstr s)
      | num kind n => rfl
      | bytes b => rfl
      | temporal kind t => rfl

/-- Element containment in a value indexed as a list. -/
theorem containsIn_list_iff [DecidableEq ρ] {v : Val ρ} {ks : List (Option Key)}
    (hv : v.indexKeys true = .ok ks) (needle : String) :
    Test.containsIn needle v = true ↔ some (Key.str needle) ∈ ks := by
  rcases indexKeys_list hv with ⟨rfl, rfl⟩ | ⟨kind, items, rfl, hks⟩
  · simp [Test.containsIn]
  · rw [hks, Test.containsIn, List.any_eq_true]
    constructor
    · rintro ⟨w, hw, hsame⟩
      cases w <;> simp only [Val.same, Scalar.key_str, Bool.false_eq_true] at hsame
      exact ⟨_, hw, by rw [Val.scalarKey, ← of_decide_eq_true hsame]⟩
    · rintro ⟨w, hw, hkey⟩
      cases w <;> simp [Val.scalarKey] at hkey
      exact ⟨_, hw, by simp [hkey]⟩

end Values

section Plan

variable [DecidableEq ρ] {fam : String → Family} {ti : TypeInfo} {rows : Rows} {lost : Lost}
  {ci : ClassIndexes} {view : Nat → String → Val ρ}

/-- A view of the rows an index stands for: the maintained fields have the
    row's keys, and none of them is a NaN. -/
structure Views (ti : TypeInfo) (rows : Rows) (view : Nat → String → Val ρ) : Prop where
  keyed : ∀ oid r, rows oid = some r → ∀ f ∈ ti.maintainedFields,
    (view oid f).indexKeys (ti.listFields.contains f) = .ok (r f)
  noNan : ∀ oid r, rows oid = some r → ∀ f ∈ ti.maintainedFields, ∀ k,
    some k ∈ r f → k.family ≠ .nan

/-- The operands of a condition hash on the fields an index looks them up in,
    and are comparable with the keys of the sorted fields. -/
structure Admissible (fam : String → Family) (ti : TypeInfo) (tests : List (String × Test ρ)) :
    Prop where
  hashable : ∀ e ∈ tests, e.1 ∈ ti.maintainedFields → e.1 ∉ ti.listFields →
    ∀ v, e.2 = .eq v → ∃ key, v.lookupKey = .ok key
  allHashable : ∀ e ∈ tests, e.1 ∈ ti.maintainedFields → e.1 ∉ ti.listFields →
    ∀ vs, e.2 = .isIn vs → ∀ v ∈ vs, ∃ key, v.lookupKey = .ok key
  comparable : ∀ e ∈ tests, e.1 ∈ ti.sortedFields → ∀ op v, e.2 = .ord op v →
    v = .none ∨ ∃ s, v = .scalar s ∧ s.key.family = fam e.1

omit [DecidableEq ρ] in
theorem Admissible.mono {tests tests' : List (String × Test ρ)} (h : Admissible fam ti tests)
    (hsub : ∀ e ∈ tests', e ∈ tests) : Admissible fam ti tests' :=
  ⟨fun e he => h.hashable e (hsub e he), fun e he => h.allHashable e (hsub e he),
    fun e he => h.comparable e (hsub e he)⟩

theorem isSome_of_recalled {oid : Nat} {f : String} {k : Option Key}
    (h : k ∈ recalled (rows oid) f) : (rows oid).isSome := by
  cases hr : rows oid with
  | none => rw [hr] at h; exact absurd h List.not_mem_nil
  | some r => rfl

omit [DecidableEq ρ] in
/-- A slice of a sorted run holds the rows whose key passes. -/
theorem rangeSlice_keys (hrep : Represents ti rows lost ci) (hs : Sound fam ci)
    (hb : ci.building = false) {f : String} (hf : f ∈ ti.sortedFields) (op : OrdOp) (s : Scalar)
    (hfam : s.key.family = fam f) :
    ∃ bm, rangeSlice ci f op (Val.scalar s : Val ρ) = .ok bm ∧ ∀ oid, oid ∈ bm ↔
      ∃ k, some k ∈ recalled (rows oid) f ∧ keyTest op k s.key := by
  have hfe := ti.eqIndexFields_of_sorted hf
  have hfs : f ∈ ci.sortedFields := (hrep.sortedFields f).mpr hf
  rcases runSlice_spec op (searched ci f s) (hs.ordered f hfs)
    (fun j hj => hs.keys f hfs j ((hs.run hb f hfs j).mp hj)) hfam (hs.ascending hb f hfs) with
    ⟨keys, hkeys, hmem⟩
  refine ⟨postingsOf ci f keys, by rw [rangeSlice, hkeys, Except.map], fun oid => ?_⟩
  rw [mem_postingsOf]
  refine exists_congr fun k => ?_
  rw [hmem, hrep.posting f hfe]
  refine ⟨fun ⟨⟨_, htest⟩, hk⟩ => ⟨hk, htest⟩, fun ⟨hk, htest⟩ => ⟨⟨?_, htest⟩, hk⟩⟩
  -- A key some row has is in the run.
  rw [hs.run hb f hfs]
  rcases (mem_posting_iff ci f (some k) oid).mp ((hrep.posting f hfe _ _).mpr hk) with ⟨p, hp, -⟩
  rw [hp]
  rfl

/-- A slice of a sorted run answers an ordering test. -/
theorem rangeSlice_spec (hrep : Represents ti rows lost ci) (hs : Sound fam ci)
    (hb : ci.building = false) (hview : Views ti rows view) {f : String} (hf : f ∈ ti.sortedFields)
    (op : OrdOp) (v : Val ρ)
    (hv : v = .none ∨ ∃ s, v = .scalar s ∧ s.key.family = fam f)
    (hans : ∀ oid, (rows oid).isSome → ∃ b, Test.evaluate (.ord op v) (view oid f) = .ok b) :
    ∃ bm, rangeSlice ci f op v = .ok bm ∧ ∀ oid, oid ∈ bm ↔
      (rows oid).isSome ∧ Test.evaluate (.ord op v) (view oid f) = .ok true := by
  have hfm := (ti.mem_maintainedFields f).mpr (Or.inl (ti.eqIndexFields_of_sorted hf))
  have hfs : f ∈ ci.sortedFields := (hrep.sortedFields f).mpr hf
  have hnolist : ti.listFields.contains f = false := by
    simpa using ti.not_list_of_sorted hf
  -- Nothing is ordered against None; against a scalar the slice tests the keys.
  rcases hv with rfl | ⟨s, rfl, hfam⟩
  · refine ⟨∅, rfl, fun oid => ?_⟩
    have hnone : Test.evaluate (.ord op .none) (view oid f) = .ok false := by
      cases hval : view oid f <;> rfl
    simp [hnone]
  · rcases rangeSlice_keys hrep hs hb hf op s hfam with ⟨bm, hbm, hmem⟩
    refine ⟨bm, hbm, fun oid => ?_⟩
    have hsnan : s.isNan = false := by
      rw [Bool.eq_false_iff]
      exact fun hc => hs.ordered f hfs (hfam.symm.trans ((isNan_iff s).mp hc))
    rw [hmem]
    -- A row has at most one key in the field, and the test on it is the test on the value.
    have hrow : ∀ r, rows oid = some r → ((∃ k, some k ∈ r f ∧ keyTest op k s.key) ↔
        Test.evaluate (.ord op (.scalar s)) (view oid f) = .ok true) := by
      intro r hr
      have hkeyed := hview.keyed oid r hr f hfm
      rw [hnolist] at hkeyed
      rcases indexKeys_scalar hkeyed with ⟨hnone, hks⟩ | ⟨t, ht, hks⟩
      · rw [hnone, hks]
        simp [Test.evaluate, Test.ordered]
      · have htnan : t.isNan = false := by
          rw [Bool.eq_false_iff]
          exact fun hc => hview.noNan oid r hr f hfm t.key (by simp [hks]) ((isNan_iff t).mp hc)
        have hans' := hans oid (by rw [hr]; rfl)
        rw [ht] at hans' ⊢
        rw [hks, evaluate_ord_scalar op t s htnan hsnan hans']
        simp
    constructor
    · rintro ⟨k, hk, htest⟩
      have hsome := isSome_of_recalled hk
      rcases Option.isSome_iff_exists.mp hsome with ⟨r, hr⟩
      rw [hr, recalled_some] at hk
      exact ⟨hsome, (hrow r hr).mp ⟨k, hk, htest⟩⟩
    · rintro ⟨hsome, htrue⟩
      rcases Option.isSome_iff_exists.mp hsome with ⟨r, hr⟩
      rw [hr, recalled_some]
      exact (hrow r hr).mpr htrue

/-- What a plan of a condition is: bitmap and residual are there as `coverage`
    says, the bitmap holds rows only, the residual tests nothing new, and
    together they select the rows the condition keeps. -/
structure Plans (ti : TypeInfo) (rows : Rows) (lost : Lost) (view : Nat → String → Val ρ)
    (c : Cond ρ) (planned : Planned ρ) : Prop where
  covers : (planned.1.isSome, planned.2.isNone) = coverage ti c
  bounded : ∀ bm, planned.1 = some bm → ∀ oid ∈ bm, (rows oid).isSome
  tests : ∀ r, planned.2 = some r → ∀ e ∈ r.tests, e ∈ c.tests
  selects : ∀ oid, (rows oid).isSome →
    (((∀ bm, planned.1 = some bm → oid ∈ bm) ∧
      ∀ r, planned.2 = some r → r.evaluate (view oid) = .ok true) ↔
        Kept ti rows lost view oid c)

/-- A predicate answered by a bitmap. -/
theorem plans_bitmap {f : String} {t : Test ρ} {bm : Finset Nat}
    (hfull : answered ti f t = true)
    (hbm : ∀ oid, oid ∈ bm ↔ (rows oid).isSome ∧ Kept ti rows lost view oid (.pred f t)) :
    Plans ti rows lost view (.pred f t) (some bm, none) := by
  refine ⟨by rw [coverage, hfull]; rfl, fun b hb oid hoid => ?_, by simp, fun oid hrow => ?_⟩
  · rw [Option.some.injEq] at hb
    exact ((hbm oid).mp (hb ▸ hoid)).1
  · simp only [Option.some.injEq, forall_eq', reduceCtorEq, false_implies, implies_true, and_true]
    rw [hbm, and_iff_right hrow]

/-- A predicate left to evaluation. -/
theorem plans_residual {f : String} {t : Test ρ}
    (hfull : answered ti f t = false)
    (hlose : f ∉ ti.eqIndexFields → f ∈ ti.uniqueFields → t.isLookup = false) :
    Plans ti rows lost view (.pred f t) (none, some (.pred f t)) := by
  refine ⟨by rw [coverage, hfull]; rfl, by simp, fun r hr e he => ?_, fun oid _ => ?_⟩
  · rw [Option.some.injEq] at hr
    rw [hr]
    exact he
  · simp only [reduceCtorEq, false_implies, implies_true, true_and, Option.some.injEq, forall_eq']
    rw [Kept]
    refine ⟨fun h => ⟨h, fun hl => ?_⟩, fun h => h.1⟩
    have hlookup := hl.2.2.1
    rw [hlose hl.1 hl.2.1] at hlookup
    simp at hlookup

omit [DecidableEq ρ] in
/-- The keys of a row in a field that is indexed as a scalar. -/
theorem view_scalar (hview : Views ti rows view) {f : String} (hf : f ∈ ti.maintainedFields) (hl : f ∉ ti.listFields)
    {oid : Nat} (hrow : (rows oid).isSome) :
    (view oid f).indexKeys false = .ok (recalled (rows oid) f) ∧
      ∀ k, some k ∈ recalled (rows oid) f → k.family ≠ .nan := by
  rcases Option.isSome_iff_exists.mp hrow with ⟨r, hr⟩
  have hkeyed := hview.keyed oid r hr f hf
  rw [show ti.listFields.contains f = false by simpa using hl] at hkeyed
  rw [hr, recalled_some]
  exact ⟨hkeyed, hview.noNan oid r hr f hf⟩

/-- Equality on an indexed field answers from one posting. -/
theorem lookupPosting_spec (hrep : Represents ti rows lost ci) (hview : Views ti rows view) {f : String} (hf : f ∈ ti.eqIndexFields) (hl : f ∉ ti.listFields)
    {v : Val ρ} {key : Option (Option Key)} (hv : v.lookupKey = .ok key) :
    ∃ bm, lookupPosting ci f v = .ok bm ∧ ∀ oid, oid ∈ bm ↔
      (rows oid).isSome ∧ (view oid f).same v = true := by
  have hfm := (ti.mem_maintainedFields f).mpr (Or.inl hf)
  refine ⟨_, by rw [lookupPosting, hv]; rfl, fun oid => ?_⟩
  have hposting : oid ∈ (key.map (ci.posting f)).getD ∅ ↔
      ∃ k, key = some k ∧ k ∈ recalled (rows oid) f := by
    cases key with
    | none => simp
    | some k => simp [hrep.posting f hf]
  rw [hposting]
  constructor
  · rintro ⟨k, hk, hmem⟩
    have hrow := isSome_of_recalled hmem
    exact ⟨hrow, (same_iff_lookup (view_scalar hview hfm hl hrow).1 hv).mpr ⟨k, hk, hmem⟩⟩
  · rintro ⟨hrow, hsame⟩
    exact (same_iff_lookup (view_scalar hview hfm hl hrow).1 hv).mp hsame

omit [DecidableEq ρ] in
/-- A string match on an indexed field answers from the matching keys. -/
theorem matchPostings_spec (hrep : Represents ti rows lost ci) (hview : Views ti rows view)
    {f : String} (hf : f ∈ ti.eqIndexFields) (hl : f ∉ ti.listFields)
    (matcher : String → Bool) (test : Val ρ → Bool)
    (hstr : ∀ s, test (.scalar (.str s)) = matcher s)
    (hno : ∀ w : Val ρ, (∀ s, w ≠ .scalar (.str s)) → (∀ k xs, w ≠ .seq k xs) → test w = false)
    (oid : Nat) :
    oid ∈ matchPostings ci f matcher ↔ (rows oid).isSome ∧ test (view oid f) = true := by
  have hfm := (ti.mem_maintainedFields f).mpr (Or.inl hf)
  have hmem : oid ∈ matchPostings ci f matcher ↔
      ∃ s, matcher s = true ∧ some (Key.str s) ∈ recalled (rows oid) f := by
    rw [matchPostings, mem_postingsOf]
    simp only [List.mem_filter, mem_distinctKeys, hrep.posting f hf]
    constructor
    · rintro ⟨k, ⟨-, hk⟩, hrow⟩
      cases k <;> simp only [matchesStringKey, Bool.false_eq_true] at hk
      exact ⟨_, hk, hrow⟩
    · rintro ⟨s, hs, hrow⟩
      refine ⟨.str s, ⟨?_, hs⟩, hrow⟩
      rw [← hrep.posting f hf, mem_posting_iff] at hrow
      rcases hrow with ⟨p, hp, -⟩
      rw [hp]
      rfl
  rw [hmem]
  constructor
  · rintro ⟨s, hs, hkey⟩
    have hrow := isSome_of_recalled hkey
    exact ⟨hrow, (stringTest_iff (view_scalar hview hfm hl hrow).1 matcher test hstr hno).mpr
      ⟨s, hs, hkey⟩⟩
  · rintro ⟨hrow, htest⟩
    exact (stringTest_iff (view_scalar hview hfm hl hrow).1 matcher test hstr hno).mp htest

/-- A lookup by a unique key finds the row that holds the key and has not lost
    it, and no row holding `None`. -/
theorem holder_lookup (hrep : Represents ti rows lost ci) {f : String} (hf : f ∈ ti.uniqueFields)
    (hlost : ∀ f k n, lost f k n → ∀ m, ci.holder f k = some m → m ≠ n) {k : Key} {oid : Nat} :
    ci.holder f k = some oid ↔ some k ∈ recalled (rows oid) f ∧ ¬lost f k oid :=
  ⟨fun h => ⟨hrep.holds f hf k oid h, fun hl => hlost f k oid hl oid h rfl⟩,
    fun h => hrep.held f hf k oid h.1 h.2⟩

omit [DecidableEq ρ] in
theorem planPred_indexed {f : String} {t : Test ρ} {pl : Planned ρ} (hf : f ∈ ci.eq.keys)
    (h : planEqIndexed f t ci = .ok (some pl)) : planPred f t ci = .ok pl := by
  rw [planPred, if_pos ((Dict.contains_iff _ _).mpr hf), h]

omit [DecidableEq ρ] in
theorem planPred_held {f : String} {t : Test ρ} {pl : Planned ρ} (hf : f ∉ ci.eq.keys)
    (hu : f ∈ ci.unique.keys) (h : planUniqueOnly f t ci = .ok (some pl)) :
    planPred f t ci = .ok pl := by
  rw [planPred, if_neg fun hc => hf ((Dict.contains_iff _ _).mp hc)]
  simp only
  rw [if_pos ((Dict.contains_iff _ _).mpr hu), h]

omit [DecidableEq ρ] in
theorem planPred_left {f : String} {t : Test ρ}
    (heq : f ∈ ci.eq.keys → planEqIndexed f t ci = .ok none)
    (huniq : f ∈ ci.unique.keys → planUniqueOnly f t ci = .ok none) :
    planPred f t ci = .ok (none, some (.pred f t)) := by
  have hindexed : (if ci.eq.contains f then planEqIndexed f t ci else .ok none) = .ok none := by
    by_cases hf : f ∈ ci.eq.keys
    · rw [if_pos ((Dict.contains_iff _ _).mpr hf), heq hf]
    · rw [if_neg fun hc => hf ((Dict.contains_iff _ _).mp hc)]
  have hheld : (if ci.unique.contains f then planUniqueOnly f t ci else .ok none) = .ok none := by
    by_cases hf : f ∈ ci.unique.keys
    · rw [if_pos ((Dict.contains_iff _ _).mpr hf), huniq hf]
    · rw [if_neg fun hc => hf ((Dict.contains_iff _ _).mp hc)]
  rw [planPred, hindexed]
  simp only
  rw [hheld]

/-- A predicate on a field with postings. -/
theorem planEqIndexed_spec (hrep : Represents ti rows lost ci) (hs : Sound fam ci)
    (hb : ci.building = false) (hview : Views ti rows view) {f : String}
    (hf : f ∈ ti.eqIndexFields) (t : Test ρ) (hadm : Admissible fam ti [(f, t)])
    (hans : ∀ oid, (rows oid).isSome → ∃ b, t.evaluate (view oid f) = .ok b) :
    ∃ pl, planPred f t ci = .ok pl ∧ Plans ti rows lost view (.pred f t) pl := by
  have hkeys : f ∈ ci.eq.keys := (hrep.eqKeys f).mpr hf
  have hfm := (ti.mem_maintainedFields f).mpr (Or.inl hf)
  have hin : ti.eqIndexFields.contains f = true := by simpa using hf
  have hkept : ∀ oid, Kept ti rows lost view oid (.pred f t) ↔
      t.evaluate (view oid f) = .ok true := by
    intro oid
    rw [Kept]
    exact ⟨fun h => h.1, fun h => ⟨h, fun hl => hl.1 hf⟩⟩
  -- The plans of an inverted field.
  have hlist : f ∈ ti.listFields → (∀ needle, t ≠ .contains needle) →
      planEqIndexed f t ci = .ok (some (none, some (.pred f t))) := by
    intro hl hneedle
    have hcl : ci.listFields.contains f = true := by rw [hrep.listContains]; simpa using hl
    have hcs : ci.sortedFields.contains f = false := by
      rw [hrep.sortedContains]
      simpa using fun hs => ti.not_list_of_sorted hs hl
    cases t with
    | contains needle => exact absurd rfl (hneedle needle)
    | ord op v => simp only [planEqIndexed, hcs, hcl, planListField, Bool.false_eq_true, if_false,
        if_true]
    | eq v => simp only [planEqIndexed, hcl, planListField, if_true]
    | ne v => simp only [planEqIndexed, hcl, planListField, if_true]
    | isIn vs => simp only [planEqIndexed, hcl, planListField, if_true]
    | startswith needle => simp only [planEqIndexed, hcl, planListField, if_true]
  have hresidual : f ∈ ti.listFields → (∀ needle, t ≠ .contains needle) →
      ∃ pl, planPred f t ci = .ok pl ∧ Plans ti rows lost view (.pred f t) pl := by
    intro hl hneedle
    refine ⟨_, planPred_indexed hkeys (hlist hl hneedle), plans_residual ?_ fun h => absurd hf h⟩
    have hns : f ∉ ti.sortedFields := fun hs => ti.not_list_of_sorted hs hl
    cases t with
    | contains needle => exact absurd rfl (hneedle needle)
    | ord op v => simp [answered, hf, hns]
    | eq v => simp [answered, hf, hl]
    | ne v => simp [answered, hf]
    | isIn vs => simp [answered, hf, hl]
    | startswith needle => simp [answered, hf, hl]
  have hcl : f ∉ ti.listFields → ci.listFields.contains f = false := by
    intro hl
    rw [hrep.listContains]
    simpa using hl
  have hbitmap : ∀ bm, planEqIndexed f t ci = .ok (some (some bm, none)) →
      answered ti f t = true →
      (∀ oid, oid ∈ bm ↔ (rows oid).isSome ∧ t.evaluate (view oid f) = .ok true) →
      ∃ pl, planPred f t ci = .ok pl ∧ Plans ti rows lost view (.pred f t) pl := by
    intro bm hplan hans' hmem
    refine ⟨_, planPred_indexed hkeys hplan, plans_bitmap hans' fun oid => ?_⟩
    rw [hmem, hkept]
  cases t with
  | eq v =>
      by_cases hl : f ∈ ti.listFields
      · exact hresidual hl (by simp)
      · rcases hadm.hashable _ (List.mem_singleton_self _) hfm hl v rfl with ⟨key, hkey⟩
        rcases lookupPosting_spec hrep hview hf hl hkey with ⟨bm, hbm, hmem⟩
        refine hbitmap bm ?_ (by simp [answered, hf, hl]) fun oid => ?_
        · simp only [planEqIndexed, hcl hl, Bool.false_eq_true, if_false, hbm, Except.map]
        · rw [hmem, Test.evaluate, Except.ok.injEq]
          refine and_congr_right fun hrow => ?_
          rw [pyEq_eq_same v (view_scalar hview hfm hl hrow).1 (view_scalar hview hfm hl hrow).2]
  | ne v =>
      by_cases hl : f ∈ ti.listFields
      · exact hresidual hl (by simp)
      · refine ⟨_, planPred_left (fun _ => ?_) fun _ => rfl, plans_residual ?_ fun h => absurd hf h⟩
        · simp only [planEqIndexed, hcl hl, Bool.false_eq_true, if_false]
        · simp [answered, hf]
  | ord op v =>
      by_cases hsort : f ∈ ti.sortedFields
      · rcases rangeSlice_spec hrep hs hb hview hsort op v
          (hadm.comparable _ (List.mem_singleton_self _) hsort op v rfl) hans with ⟨bm, hbm, hmem⟩
        refine hbitmap bm ?_ (by simp [answered, hf, hsort]) hmem
        have hcs : ci.sortedFields.contains f = true := by
          rw [hrep.sortedContains]
          simpa using hsort
        simp only [planEqIndexed, hcs, if_true, hbm, Except.map]
      · by_cases hl : f ∈ ti.listFields
        · exact hresidual hl (by simp)
        · refine ⟨_, planPred_left (fun _ => ?_) fun _ => rfl,
            plans_residual ?_ fun h => absurd hf h⟩
          · have hcs : ci.sortedFields.contains f = false := by
              rw [hrep.sortedContains]
              simpa using hsort
            simp only [planEqIndexed, hcs, hcl hl, Bool.false_eq_true, if_false]
          · simp [answered, hf, hsort]
  | isIn vs =>
      by_cases hl : f ∈ ti.listFields
      · exact hresidual hl (by simp)
      · have hall : ∀ v ∈ vs, ∃ bm, lookupPosting ci f v = .ok bm ∧ ∀ oid, oid ∈ bm ↔
            (rows oid).isSome ∧ (view oid f).same v = true := by
          intro v hv
          rcases hadm.allHashable _ (List.mem_singleton_self _) hfm hl vs rfl v hv with ⟨key, hkey⟩
          exact lookupPosting_spec hrep hview hf hl hkey
        rcases lookupAll_rows vs hall with ⟨bm, hbm, hmem⟩
        refine hbitmap bm ?_ (by simp [answered, hf, hl]) fun oid => ?_
        · simp only [planEqIndexed, hcl hl, Bool.false_eq_true, if_false, hbm, Except.map]
        · rw [hmem, Test.evaluate, Except.ok.injEq, List.any_eq_true]
          exact ⟨fun ⟨v, hv, hrow, h⟩ => ⟨hrow, v, hv, h⟩, fun ⟨hrow, v, hv, h⟩ => ⟨v, hv, hrow, h⟩⟩
  | contains needle =>
      by_cases hl : f ∈ ti.listFields
      · refine hbitmap (ci.posting f (some (.str needle))) ?_ (by simp [answered, hf]) fun oid => ?_
        · have hcl' : ci.listFields.contains f = true := by
            rw [hrep.listContains]
            simpa using hl
          simp only [planEqIndexed, hcl', planListField, if_true]
        · rw [hrep.posting f hf, Test.evaluate, Except.ok.injEq]
          have hrow : ∀ r, rows oid = some r →
              (some (Key.str needle) ∈ r f ↔ Test.containsIn needle (view oid f) = true) := by
            intro r hr
            have hkeyed := hview.keyed oid r hr f hfm
            rw [show ti.listFields.contains f = true by simpa using hl] at hkeyed
            exact (containsIn_list_iff hkeyed needle).symm
          cases hr : rows oid with
          | none => simp
          | some r => simp [hrow r hr]
      · refine hbitmap (matchPostings ci f (containsString needle)) ?_ (by simp [answered, hf])
          fun oid => ?_
        · simp only [planEqIndexed, hcl hl, Bool.false_eq_true, if_false]
        · rw [Test.evaluate, Except.ok.injEq]
          exact matchPostings_spec hrep hview hf hl _ (Test.containsIn needle) (fun s => rfl)
            (containsIn_other needle) oid
  | startswith needle =>
      by_cases hl : f ∈ ti.listFields
      · exact hresidual hl (by simp)
      · refine hbitmap (matchPostings ci f (startsWithString needle)) ?_
          (by simp [answered, hf, hl]) fun oid => ?_
        · simp only [planEqIndexed, hcl hl, Bool.false_eq_true, if_false]
        · rw [Test.evaluate, Except.ok.injEq]
          exact matchPostings_spec hrep hview hf hl _ (Test.startsWithIn needle) (fun s => rfl)
            (startsWithIn_other needle) oid

/-- A predicate on a field that is unique only. -/
theorem planUniqueOnly_spec (hrep : Represents ti rows lost ci) (hview : Views ti rows view)
    (hlost : ∀ f k n, lost f k n → ∀ m, ci.holder f k = some m → m ≠ n) {f : String}
    (hf : f ∉ ti.eqIndexFields) (hu : f ∈ ti.uniqueFields) (t : Test ρ)
    (hadm : Admissible fam ti [(f, t)]) :
    ∃ pl, planPred f t ci = .ok pl ∧ Plans ti rows lost view (.pred f t) pl := by
  have hkeys : f ∉ ci.eq.keys := fun h => hf ((hrep.eqKeys f).mp h)
  have hukeys : f ∈ ci.unique.keys := (hrep.uniqueKeys f).mpr hu
  have hfm := (ti.mem_maintainedFields f).mpr (Or.inr hu)
  have hl : f ∉ ti.listFields := ti.not_list_of_unique hu
  -- A lookup answers for the rows whose key is one that passes.
  have hbitmap : ∀ bm (pass : Key → Prop), planUniqueOnly f t ci = .ok (some (some bm, none)) →
      t.isLookup = true →
      (∀ oid, oid ∈ bm ↔ ∃ k, pass k ∧ ci.holder f k = some oid) →
      (∀ oid, (rows oid).isSome → ∀ k, some k ∈ recalled (rows oid) f →
        (t.evaluate (view oid f) = .ok true ↔ pass k)) →
      ∃ pl, planPred f t ci = .ok pl ∧ Plans ti rows lost view (.pred f t) pl := by
    intro bm pass hplan hlookup hmem heval
    refine ⟨_, planPred_held hkeys hukeys hplan,
      plans_bitmap (by simp [answered, hf, hu, hlookup]) fun oid => ?_⟩
    rw [hmem, Kept]
    constructor
    · rintro ⟨k, hpass, hk⟩
      rcases (holder_lookup hrep hu hlost).mp hk with ⟨hrow, hno⟩
      have hsome : (rows oid).isSome := isSome_of_recalled hrow
      exact ⟨hsome, (heval oid hsome k hrow).mpr hpass, fun hlose => hno (hlose.2.2.2 k hrow)⟩
    · rintro ⟨hsome, htrue, hlose⟩
      -- The row is not lost, so it holds a key, and the map has it.
      have hkey : ∃ k, some k ∈ recalled (rows oid) f ∧ ¬lost f k oid := by
        by_contra hc
        refine hlose ⟨hf, hu, hlookup, fun k hk => ?_⟩
        by_contra hno
        exact hc ⟨k, hk, hno⟩
      rcases hkey with ⟨k, hk, hno⟩
      exact ⟨k, (heval oid hsome k hk).mp htrue, (holder_lookup hrep hu hlost).mpr ⟨hk, hno⟩⟩
  -- On a row that holds a key, the field is the scalar of that key.
  have hscalar : ∀ oid, (rows oid).isSome → ∀ k, some k ∈ recalled (rows oid) f →
      recalled (rows oid) f = [some k] := by
    intro oid hsome k hk
    rcases indexKeys_scalar (view_scalar hview hfm hl hsome).1 with ⟨-, h⟩ | ⟨s, -, h⟩
    · rw [h] at hk
      simp at hk
    · rw [h, List.mem_singleton, Option.some.injEq] at hk
      rw [h, hk]
  have hsame : ∀ v key, v.lookupKey = .ok key → ∀ oid, (rows oid).isSome →
      ∀ k, some k ∈ recalled (rows oid) f →
        ((view oid f).same v = true ↔ key = some (some k)) := by
    intro v key hv oid hsome k hk
    rw [same_iff_lookup (view_scalar hview hfm hl hsome).1 hv, hscalar oid hsome k hk]
    simp
  have hstring : ∀ (matcher : String → Bool) (test : Val ρ → Bool),
      (∀ s, test (.scalar (.str s)) = matcher s) →
      (∀ w : Val ρ, (∀ s, w ≠ .scalar (.str s)) → (∀ k xs, w ≠ .seq k xs) → test w = false) →
      ∀ oid, (rows oid).isSome → ∀ k, some k ∈ recalled (rows oid) f →
        (test (view oid f) = true ↔ ∃ s, matcher s = true ∧ k = .str s) := by
    intro matcher test hstr hno oid hsome k hk
    rw [stringTest_iff (view_scalar hview hfm hl hsome).1 matcher test hstr hno,
      hscalar oid hsome k hk]
    refine exists_congr fun s => and_congr_right fun _ => ?_
    rw [List.mem_singleton, Option.some.injEq, eq_comm]
  cases t with
  | eq v =>
      rcases hadm.hashable _ (List.mem_singleton_self _) hfm hl v rfl with ⟨key, hkey⟩
      rcases mem_lookupHolder ci f hkey with ⟨bm, hbm, hmem⟩
      refine hbitmap bm (fun k => key = some (some k)) ?_ rfl hmem fun oid hsome k hk => ?_
      · rw [planUniqueOnly, hbm]
        rfl
      · rw [Test.evaluate, Except.ok.injEq, ← hsame v key hkey oid hsome k hk,
          pyEq_eq_same v (view_scalar hview hfm hl hsome).1 (view_scalar hview hfm hl hsome).2]
  | isIn vs =>
      have hall : ∀ v ∈ vs, ∃ bm, lookupHolder ci f v = .ok bm ∧ ∀ oid, oid ∈ bm ↔
          ∃ k, v.lookupKey = .ok (some (some k)) ∧ ci.holder f k = some oid := by
        intro v hv
        rcases hadm.allHashable _ (List.mem_singleton_self _) hfm hl vs rfl v hv with ⟨key, hkey⟩
        rw [hkey]
        simp only [Except.ok.injEq]
        exact mem_lookupHolder ci f hkey
      rcases lookupAll_rows vs hall with ⟨bm, hbm, hmem⟩
      refine hbitmap bm (fun k => ∃ v ∈ vs, v.lookupKey = .ok (some (some k))) ?_ rfl
        (fun oid => ?_) fun oid hsome k hk => ?_
      · rw [planUniqueOnly, hbm]
        rfl
      · rw [hmem]
        exact ⟨fun ⟨v, hv, k, hk, h⟩ => ⟨k, ⟨v, hv, hk⟩, h⟩,
          fun ⟨k, ⟨v, hv, hk⟩, h⟩ => ⟨v, hv, k, hk, h⟩⟩
      · rw [Test.evaluate, Except.ok.injEq, List.any_eq_true]
        refine exists_congr fun v => and_congr_right fun hv => ?_
        rcases hadm.allHashable _ (List.mem_singleton_self _) hfm hl vs rfl v hv with ⟨key, hkey⟩
        rw [hsame v key hkey oid hsome k hk, hkey, Except.ok.injEq]
  | contains needle =>
      refine hbitmap (matchHolders ci f (containsString needle))
        (fun k => ∃ s, containsString needle s = true ∧ k = .str s) rfl rfl (fun oid => ?_)
        fun oid hsome k hk => ?_
      · rw [mem_matchHolders]
        exact ⟨fun ⟨s, hs, h⟩ => ⟨_, ⟨s, hs, rfl⟩, h⟩, fun ⟨_, ⟨s, hs, rfl⟩, h⟩ => ⟨s, hs, h⟩⟩
      · rw [Test.evaluate, Except.ok.injEq]
        exact hstring _ _ (fun s => rfl) (containsIn_other needle) oid hsome k hk
  | startswith needle =>
      refine hbitmap (matchHolders ci f (startsWithString needle))
        (fun k => ∃ s, startsWithString needle s = true ∧ k = .str s) rfl rfl (fun oid => ?_)
        fun oid hsome k hk => ?_
      · rw [mem_matchHolders]
        exact ⟨fun ⟨s, hs, h⟩ => ⟨_, ⟨s, hs, rfl⟩, h⟩, fun ⟨_, ⟨s, hs, rfl⟩, h⟩ => ⟨s, hs, h⟩⟩
      · rw [Test.evaluate, Except.ok.injEq]
        exact hstring _ _ (fun s => rfl) (startsWithIn_other needle) oid hsome k hk
  | ne v =>
      exact ⟨_, planPred_left (fun h => absurd h hkeys) fun _ => rfl,
        plans_residual (by simp [answered, hf, Test.isLookup]) fun _ _ => rfl⟩
  | ord op v =>
      exact ⟨_, planPred_left (fun h => absurd h hkeys) fun _ => rfl,
        plans_residual (by simp [answered, hf, Test.isLookup]) fun _ _ => rfl⟩

/-- The plan of a leaf predicate. -/
theorem planPred_spec (hrep : Represents ti rows lost ci) (hs : Sound fam ci)
    (hb : ci.building = false) (hview : Views ti rows view)
    (hlost : ∀ f k n, lost f k n → ∀ m, ci.holder f k = some m → m ≠ n) (f : String) (t : Test ρ)
    (hadm : Admissible fam ti [(f, t)])
    (hans : ∀ oid, (rows oid).isSome → ∃ b, t.evaluate (view oid f) = .ok b) :
    ∃ pl, planPred f t ci = .ok pl ∧ Plans ti rows lost view (.pred f t) pl := by
  by_cases hf : f ∈ ti.eqIndexFields
  · exact planEqIndexed_spec hrep hs hb hview hf t hadm hans
  by_cases hu : f ∈ ti.uniqueFields
  · exact planUniqueOnly_spec hrep hview hlost hf hu t hadm
  · exact ⟨_, planPred_left (fun h => absurd ((hrep.eqKeys f).mp h) hf)
      fun h => absurd ((hrep.uniqueKeys f).mp h) hu,
      plans_residual (by simp [answered, hf, hu]) fun _ h => absurd h hu⟩

end Plan

end DataCrystal
