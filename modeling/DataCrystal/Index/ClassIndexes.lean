import Mathlib.Data.Finset.Insert
import Mathlib.Data.Finset.Erase
import Mathlib.Data.Finset.Lattice.Fold
import DataCrystal.Lib.Raise
import DataCrystal.Condition

/-!
# The Indexes of One Class

The extent, the equality postings, the unique maps and the sorted runs of one
class, with the operations a commit folds into them.

A field value reaches the index as the list of its keys: the one key of a
scalar, `None` included, or the elements of a list. A list field is never
unique and never sorted, so indexing a value is one loop over its keys
whatever the field, and so is forgetting it.

The index remembers, for every OID, the keys it was last indexed under. An
update or a delete takes exactly those out again and never reads the store. A
cache load postpones that memory: `rebuildLastValues` recovers it from the
postings on the first write.

A dictionary keeps the first object of each key it was given, and two objects
of one key need not be of one type. `decimals` says which keys are `Decimal`
objects, since that is what a comparison with a NaN depends on; of a key
without an entry it says nothing.

A run is kept by insertion, which raises when the values are not mutually
orderable, and the insertion that raises leaves the index half changed.

## Main definitions

* `ClassIndexes`: The structures of one class.
* `Val.indexKeys`: The keys of a field value.
* `ClassIndexes.insert`, `ClassIndexes.remove`: Folding in a write and a delete.
* `ClassIndexes.rebuildLastValues`: Recovering the memory from the postings.
* `ClassIndexes.finalizeBuild`: Sorting every run at the end of a bulk build.
* `ClassIndexes.committedLabels`: The labels remembered for an OID.

## Theorems

* `posting_addPosting`, `posting_unindex`: What the postings are after a step.
* `holder_setHolder`, `holder_unindex`: What the unique maps are after a step.
-/

namespace DataCrystal

/-- All index structures of one class. -/
structure ClassIndexes where
  extent : Finset Nat
  /-- Per field and key, the OIDs holding it. -/
  eq : Dict String (Dict (Option Key) (Finset Nat))
  /-- Per field, the keys whose object is a `Decimal`. -/
  decimals : String → Key → Bool
  /-- Per unique field and key, the one OID holding it. -/
  unique : Dict String (Dict Key Nat)
  listFields : List String
  sortedFields : List String
  /-- Per sorted field, its distinct keys in order. -/
  sortedKeys : Dict String (List Key)
  building : Bool
  /-- The keys each OID was last indexed under; an absent field has none. -/
  lastValues : Nat → Option (String → List (Option Key))
  needsLvRebuild : Bool

namespace Val

variable {ρ : Type}

/-- The key of a scalar value. A value of no indexable type is refused. -/
def scalarKey : Val ρ → Except ValueErr (Option Key)
  | .none => .ok Option.none
  | .scalar s => .ok (some s.key)
  | _ => .error .typeError

/-- The keys a field value is indexed under: its elements in a list field, the
    value itself elsewhere. -/
def indexKeys (multivalued : Bool) (v : Val ρ) : Except ValueErr (List (Option Key)) :=
  if multivalued then
    match v with
    -- No list is no key, where no scalar is the key `None`.
    | .none => .ok []
    | .seq _ items => items.mapM scalarKey
    | _ => .error .typeError
  else
    (scalarKey v).map fun k => [k]

/-- The scalars a field value is indexed by. -/
def objects : Val ρ → List Scalar
  | .scalar s => [s]
  | .seq _ items => items.filterMap fun v => match v with
    | .scalar s => some s
    | _ => Option.none
  | _ => []

/-- Whether the object a value gives a key is a `Decimal`. A set of list
    elements keeps the first of those that are equal. -/
def decimalAt (v : Val ρ) (k : Key) : Bool :=
  (v.objects.find? fun s => s.key = k).elim false Scalar.isDecimal

end Val

/-- A naive datetime against an aware one; other keys pass. -/
def mixesTemporal (a b : Key) : Bool :=
  a.isDatetime && b.isDatetime && a.family ≠ b.family

/-- Sort the keys of a sorted field into its run. -/
def buildRun (field : String) (decimals : Key → Bool) (keys : List Key) : Except Err (List Key) :=
  match sortedRun (Key.ltOf decimals) keys with
  | .ok run => .ok run
  | .error .typeError => .error (.mixedTemporalIndex field)
  | .error .invalidOperation => .error (.decimalNan field)

namespace ClassIndexes

/-- Indexes with nothing in them, for the given fields. -/
def init (eqFields uniqueFields listFields sortedFields : List String) : ClassIndexes where
  extent := ∅
  eq := Dict.ofList (eqFields.map fun f => (f, Dict.empty))
  decimals := fun _ _ => false
  unique := Dict.ofList (uniqueFields.map fun f => (f, Dict.empty))
  listFields := listFields
  sortedFields := sortedFields
  sortedKeys := Dict.ofList (sortedFields.map fun f => (f, []))
  building := false
  -- The remembered values are kept from here on, so nothing is to be derived.
  lastValues := fun _ => none
  needsLvRebuild := false

/-- The entry of a key in the postings of a field, if the field has one. -/
def posting? (ci : ClassIndexes) (f : String) (k : Option Key) : Option (Finset Nat) :=
  (ci.eq.get? f).bind fun col => col.get? k

/-- The OIDs posted under a key, none when the key has no entry. -/
def posting (ci : ClassIndexes) (f : String) (k : Option Key) : Finset Nat :=
  (ci.posting? f k).getD ∅

/-- The OID holding a key of a unique field. -/
def holder (ci : ClassIndexes) (f : String) (k : Key) : Option Nat :=
  (ci.unique.get? f).bind fun m => m.get? k

/-- The sorted run of a field. -/
def run (ci : ClassIndexes) (f : String) : List Key := ci.sortedKeys.getD f []

/-- The fields with a structure of their own. -/
def fields (ci : ClassIndexes) : List String := ci.eq.keys ++ ci.unique.keys

def addPosting (oid : Nat) (f : String) (k : Option Key) (ci : ClassIndexes) : ClassIndexes :=
  { ci with eq := ci.eq.mapVal fun g col =>
      if g = f then col.set k (insert oid (col.getD k ∅)) else col }

def setHolder (oid : Nat) (f : String) (k : Key) (ci : ClassIndexes) : ClassIndexes :=
  { ci with unique := ci.unique.mapVal fun g m => if g = f then m.set k oid else m }

/-- Take an OID out of every structure it was remembered under. A unique key
    is freed only if the OID still holds it. -/
def unindex (oid : Nat) (old : String → List (Option Key)) (ci : ClassIndexes) :
    ClassIndexes :=
  { ci with
    eq := ci.eq.mapVal fun f col =>
      -- A posting that gets empty stays, and so does its key in the run.
      col.mapVal fun k p => if k ∈ old f then p.erase oid else p
    -- Another entity may have taken the key since.
    unique := ci.unique.mapVal fun f m => m.filter fun k h => !(some k ∈ old f && h = oid) }

/-- The keys a field's postings, or a unique-only field's map, hold an OID
    under. A list field's memory drops `None`. -/
def rebuiltKeys (ci : ClassIndexes) (oid : Nat) (f : String) : List (Option Key) :=
  match ci.eq.get? f with
  | some col =>
    (col.entries.filter fun e => oid ∈ e.2 && !(f ∈ ci.listFields && e.1 = none)).map Prod.fst
  | none =>
    match ci.unique.get? f with
    | some m => (m.entries.filter fun e => e.2 = oid).map fun e => some e.1
    | none => []

/-- Recover the memory of every OID from the postings and the unique maps. -/
def rebuildLastValues (ci : ClassIndexes) : ClassIndexes :=
  { ci with
    lastValues := fun oid =>
      if ci.fields.any fun f => !(ci.rebuiltKeys oid f).isEmpty then some (ci.rebuiltKeys oid)
      else none
    needsLvRebuild := false }

/-- The memory is rebuilt on the first write after a cache load. -/
def withLastValues (ci : ClassIndexes) : ClassIndexes :=
  if ci.needsLvRebuild then ci.rebuildLastValues else ci

/-- Forget what an OID was indexed under. -/
def forget (oid : Nat) (ci : ClassIndexes) : ClassIndexes :=
  match ci.lastValues oid with
  | some old =>
    { ci.unindex oid old with lastValues := Function.update ci.lastValues oid none }
  | none => ci

def setExtent (oids : Finset Nat) (ci : ClassIndexes) : ClassIndexes := { ci with extent := oids }

def setMemory (oid : Nat) (row : String → List (Option Key)) (ci : ClassIndexes) :
    ClassIndexes :=
  { ci with lastValues := Function.update ci.lastValues oid (some row) }

/-- Remember what object a new key of a field is. -/
def noteObject (f : String) (k : Key) (decimal : Bool) (ci : ClassIndexes) : ClassIndexes :=
  { ci with
    decimals := Function.update ci.decimals f (Function.update (ci.decimals f) k decimal) }

/-- A new key of a sorted field enters the run; a bulk build sorts at the end
    instead. -/
def enterSortedRun (f : String) (k : Key) : EStateM Err ClassIndexes Unit := do
  let ci ← get
  -- In bulk the runs are sorted once, at the end.
  if ci.sortedFields.contains f && !ci.building then
    -- Naive and aware datetimes do not compare, so the first key speaks for all.
    raiseIf (((ci.run f).head?.map (mixesTemporal k)).getD false) (.mixedTemporalIndex f)
    let run ← ofExcept ((insort (Key.ltOf (ci.decimals f)) (ci.run f) k).mapError Err.value)
    set { ci with sortedKeys := ci.sortedKeys.set f run }

/-- A key without an entry enters the field's sorted run; `None` never does. -/
def enterNewKey (f : String) (decimalAt : Key → Bool) (k : Option Key) :
    EStateM Err ClassIndexes Unit := do
  let ci ← get
  match k, ci.posting? f k with
  | some key, none => do
    modify (noteObject f key (decimalAt key))
    enterSortedRun f key
  | _, _ => pure ()

/-- Hold a key of a unique field; `None` is never held. -/
def holdKey (oid : Nat) (f : String) (k : Option Key) (ci : ClassIndexes) : ClassIndexes :=
  match k with
  | some key => ci.setHolder oid f key
  | none => ci

/-- Index an OID under one key of a field. -/
def addKey (oid : Nat) (f : String) (decimalAt : Key → Bool) (k : Option Key) :
    EStateM Err ClassIndexes Unit := do
  let ci ← get
  if ci.eq.contains f then
    enterNewKey f decimalAt k
    modify (addPosting oid f k)
  -- A field without postings answers from the unique map alone.
  modify (holdKey oid f k)

/-- Index an OID under every key of a field value; returns the keys. -/
def indexField {ρ : Type} (oid : Nat) (f : String) (v : Val ρ) :
    EStateM Err ClassIndexes (List (Option Key)) := do
  let ci ← get
  let keys ← ofExcept ((v.indexKeys (ci.listFields.contains f)).mapError Err.value)
  keys.forM (addKey oid f v.decimalAt)
  pure keys

/-- Index an OID under one field of an entry; returns what to remember. -/
def indexEntry {ρ : Type} (oid : Nat) (e : String × Val ρ) :
    EStateM Err ClassIndexes (String × List (Option Key)) := do
  let keys ← indexField oid e.1 e.2
  pure (e.1, keys)

/-- The memory of one OID, from the indexed fields. -/
def snapshot (indexed : List (String × List (Option Key))) (f : String) : List (Option Key) :=
  ((indexed.find? fun e => e.1 = f).map Prod.snd).getD []

/-- Fold in a write: whatever the OID was indexed under before is forgotten. -/
def insert {ρ : Type} (oid : Nat) (values : List (String × Val ρ)) :
    EStateM Err ClassIndexes Unit := do
  -- The keys of before come from the memory, not from the storage.
  modify fun ci => ci.withLastValues.forget oid
  modify fun ci => ci.setExtent (Insert.insert oid ci.extent)
  let indexed ← values.mapM (indexEntry oid)
  modify (setMemory oid (snapshot indexed))

/-- Fold in a delete. -/
def remove (oid : Nat) (ci : ClassIndexes) : ClassIndexes :=
  let ci := ci.withLastValues.forget oid
  ci.setExtent (ci.extent.erase oid)

/-- The keys of a sorted field that are not `None`. -/
def distinctKeys (ci : ClassIndexes) (f : String) : List Key :=
  ((ci.eq.get? f).map fun col => col.keys.filterMap id).getD []

/-- Sort the run of every sorted field and leave bulk mode. -/
def finalizeBuild : EStateM Err ClassIndexes Unit := do
  let ci ← get
  ci.sortedFields.forM fun f => do
    let run ← ofExcept (buildRun f (ci.decimals f) (ci.distinctKeys f))
    modify fun ci => { ci with sortedKeys := ci.sortedKeys.set f run }
  modify fun ci => { ci with building := false }

/-- The owner, groups and read floor an OID was last indexed under. -/
def committedLabels (ci : ClassIndexes) (oid : Nat) : Option (ℤ × List ℤ × ℤ) :=
  (ci.withLastValues.lastValues oid).bind fun row =>
    -- No owner or no floor in the memory: no labels.
    match row "_dc_owner", row "_dc_read_floor" with
    | [some (.fin owner)], [some (.fin floor)] =>
      some (owner.num, (row "_dc_groups").filterMap (fun k => match k with
        | some (.fin g) => some g.num
        | _ => none), floor.num)
    | _, _ => none

section Lookups

variable (ci : ClassIndexes) (oid : Nat) (f g : String)

theorem mem_posting_iff (k : Option Key) (n : Nat) :
    n ∈ ci.posting f k ↔ ∃ p, ci.posting? f k = some p ∧ n ∈ p := by
  rw [posting]
  cases ci.posting? f k <;> simp

theorem posting?_addPosting (k j : Option Key) :
    (ci.addPosting oid f k).posting? g j =
      if g = f ∧ j = k ∧ ci.eq.contains f then some (Insert.insert oid (ci.posting f k))
      else ci.posting? g j := by
  simp only [posting?, addPosting, Dict.get?_mapVal, posting, Dict.contains]
  cases hg : ci.eq.get? g with
  | none =>
      by_cases hgf : g = f
      · subst hgf
        simp [hg]
      · simp [hgf]
  | some col =>
      by_cases hgf : g = f
      · subst hgf
        simp only [hg, Option.map_some, Option.bind_some, if_true, Dict.get?_set, Dict.getD,
          Option.isSome_some, and_true, true_and]
      · simp [hgf]

theorem posting_addPosting (k j : Option Key) (hf : ci.eq.contains f = true) (n : Nat) :
    n ∈ (ci.addPosting oid f k).posting g j ↔
      (n = oid ∧ g = f ∧ j = k) ∨ n ∈ ci.posting g j := by
  rw [mem_posting_iff, posting?_addPosting]
  by_cases h : g = f ∧ j = k
  · rcases h with ⟨rfl, rfl⟩
    simp [hf, Finset.mem_insert]
  · have hno : ¬(g = f ∧ j = k ∧ ci.eq.contains f = true) := fun hc => h ⟨hc.1, hc.2.1⟩
    rw [if_neg hno, ← mem_posting_iff]
    simp only [h, and_false, false_or]

theorem holder_setHolder (k j : Key) :
    (ci.setHolder oid f k).holder g j =
      if g = f ∧ j = k ∧ ci.unique.contains f then some oid else ci.holder g j := by
  simp only [holder, setHolder, Dict.get?_mapVal, Dict.contains]
  cases hg : ci.unique.get? g with
  | none =>
      by_cases hgf : g = f
      · subst hgf
        simp [hg]
      · simp [hgf]
  | some m =>
      by_cases hgf : g = f
      · subst hgf
        simp only [hg, Option.map_some, Option.bind_some, if_true, Dict.get?_set,
          Option.isSome_some, and_true, true_and]
      · simp [hgf]

theorem posting?_unindex (old : String → List (Option Key)) (k : Option Key) :
    (ci.unindex oid old).posting? f k =
      (ci.posting? f k).map fun p => if k ∈ old f then p.erase oid else p := by
  simp only [posting?, unindex, Dict.get?_mapVal]
  cases ci.eq.get? f with
  | none => rfl
  | some col => simp only [Option.map_some, Option.bind_some, Dict.get?_mapVal]

theorem posting_unindex (old : String → List (Option Key)) (k : Option Key) (n : Nat) :
    n ∈ (ci.unindex oid old).posting f k ↔ n ∈ ci.posting f k ∧ ¬(k ∈ old f ∧ n = oid) := by
  simp only [mem_posting_iff, posting?_unindex]
  cases ci.posting? f k with
  | none => simp
  | some p =>
      by_cases hk : k ∈ old f
      · simp [hk, Finset.mem_erase, and_comm]
      · simp [hk]

theorem holder_unindex (old : String → List (Option Key)) (k : Key) (n : Nat) :
    (ci.unindex oid old).holder f k = some n ↔
      ci.holder f k = some n ∧ ¬(some k ∈ old f ∧ n = oid) := by
  simp only [holder, unindex, Dict.get?_mapVal]
  cases ci.unique.get? f with
  | none => simp
  | some m =>
      simp only [Option.map_some, Option.bind_some, Dict.get?_filter_eq_some_iff, Bool.not_eq_true',
        Bool.and_eq_false_iff, decide_eq_false_iff_not]
      tauto

end Lookups

end ClassIndexes

end DataCrystal
