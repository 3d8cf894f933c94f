import Mathlib.Data.Finset.Sort
import DataCrystal.Lib.Paging
import DataCrystal.Index.Agreement

/-!
# Ordered Reads and Windows

A read takes a window of its rows: it skips `offset` of them and stops after
`limit`. The rows come by ascending OID, or by a field with `None` last and ties
by ascending OID.

An indexed field is read in order off its postings, key by key and without a
record being decoded. With a limit the walk stops at the key that fills the
window. A field without postings is sorted by the values of the rows. Both ways
are `Arranged` by the value of the field, and so they are the same order.

The keys of an ordinary indexed field are sorted when they are asked for, the
stale ones included, so a single key that does not compare with the others
makes every ordered read of the field raise. `Comparable` excludes it.

## Main definitions

* `Window`, `validateWindow`: A checked window.
* `applyWindow`, `windowIter`: Taking it of a list and of a bitmap.
* `orderViaIndex`, `windowedIndexOrder`: Reading a field off its postings.
* `orderByValue`: Sorting by a value.
* `parseOrderBy`: The field and the direction that are asked for.
* `Comparable`: The keys of a field compare with each other.

## Theorems

* `windowIter_eq`, `windowedIndexOrder_eq`: What stops early is the window of
  the whole.
* `orderViaIndex_spec`: A read off the postings is arranged by the field.
* `orderByValue_spec`: So is a sort by its value.
-/

namespace DataCrystal

open ClassIndexes

/-- The exceptions of a read, besides those of the records it reads. -/
inductive QueryErr
  | negativeOffset (offset : ℤ)
  | negativeLimit (limit : ℤ)
  /-- `order_by` is a tuple but not a pair. -/
  | notAPair
  /-- `order_by` names no field. -/
  | noFieldName
  | unknownField (field : String)
  | direction
  | multivalued (field : String)
  /-- `pluck` without a field. -/
  | noFields
  /-- A comparison raised. -/
  | value (e : ValueErr)

/-- A window whose bounds have been checked. -/
structure Window where
  limit : Option Nat
  offset : Nat
  deriving DecidableEq

/-- Neither bound of a window is negative. -/
def validateWindow (limit : Option ℤ) (offset : ℤ) : Except QueryErr Window :=
  if offset < 0 then .error (.negativeOffset offset)
  else
    match limit with
    | none => .ok ⟨none, offset.toNat⟩
    | some n =>
      if n < 0 then .error (.negativeLimit n) else .ok ⟨some n.toNat, offset.toNat⟩

/-- The window of a list. -/
def applyWindow {α : Type} (w : Window) (seq : List α) : List α :=
  match w.limit with
  | none => seq.drop w.offset
  | some n => (seq.drop w.offset).take n

/-- The OIDs of a bitmap, ascending. -/
def oidsOf (bm : Finset Nat) : List Nat := bm.sort (· ≤ ·)

/-- The window of a bitmap, taken lazily: nothing past its end is produced. -/
def windowIter (w : Window) (candidate : Finset Nat) : List Nat :=
  match w.limit with
  | none => (oidsOf candidate).drop w.offset
  | some n => ((oidsOf candidate).take (w.offset + n)).drop w.offset

/-- The keys of an indexed field in the asked direction: its run, or its
    distinct keys sorted on the spot. -/
def orderKeys (ci : ClassIndexes) (f : String) (desc : Bool) : Except ValueErr (List Key) :=
  if ci.sortedFields.contains f then .ok (if desc then (ci.run f).reverse else ci.run f)
  else stableSort (Key.ltOf (ci.decimals f)) desc (ci.distinctKeys f)

/-- The matched OIDs under a key. -/
def matchedUnder (ci : ClassIndexes) (matched : Finset Nat) (f : String) (k : Option Key) :
    List Nat :=
  oidsOf (ci.posting f k ∩ matched)

/-- The matched OIDs by an indexed field, `None` last in both directions. -/
def orderViaIndex (ci : ClassIndexes) (matched : Finset Nat) (f : String) (desc : Bool) :
    Except ValueErr (List Nat) :=
  (orderKeys ci f desc).map fun keys =>
    (keys.flatMap fun k => matchedUnder ci matched f (some k)) ++ matchedUnder ci matched f none

/-- The window of the matched OIDs by an indexed field. With a limit no key past
    the window is looked at, and `None` only if the keys leave room. -/
def windowedIndexOrder (ci : ClassIndexes) (matched : Finset Nat) (f : String) (desc : Bool)
    (w : Window) : Except ValueErr (List Nat) :=
  match w.limit with
  -- No window to stop at: the whole order, without its first rows.
  | none => (orderViaIndex ci matched f desc).map (List.drop w.offset)
  | some n =>
    (orderKeys ci f desc).map fun keys =>
      let stop := w.offset + n
      -- The rows of key after key, until there are enough.
      let got := collect (fun k => matchedUnder ci matched f (some k)) stop [] keys
      if got.2 || stop ≤ got.1.length then (got.1.take stop).drop w.offset
      -- The rows without a value come last.
      else ((got.1 ++ matchedUnder ci matched f none).take stop).drop w.offset

/-- `value is None`. -/
def Val.isNone {ρ : Type} : Val ρ → Bool
  | .none => true
  | _ => false

/-- Sort by a value, `None` last in both directions. -/
def orderByValue {α ρ : Type} [DecidableEq ρ] (valueOf : α → Val ρ) (desc : Bool)
    (xs : List α) : Except ValueErr (List α) :=
  let absent := xs.filter fun a => (valueOf a).isNone
  let present := xs.filter fun a => !(valueOf a).isNone
  -- Descending keeps the order of equal values as well.
  (stableSort (fun a b => (valueOf a).pyLt (valueOf b)) desc present).map fun sorted =>
    sorted ++ absent

/-- What a caller may pass as `order_by`: a field, or a tuple of a field and a
    direction. `none` stands for a value that is neither a field nor a name. -/
inductive OrderBy
  | bare (field : Option String)
  | tuple (items : List (Option String))

/-- The field and the direction that are meant: ascending for a bare field. -/
def OrderBy.parts : OrderBy → Except QueryErr (Option String × Option String)
  | .bare field => .ok (field, some "asc")
  | .tuple [field, direction] => .ok (field, direction)
  | .tuple _ => .error .notAPair

/-- The field and whether the direction is descending. -/
def parseOrderBy (order : OrderBy) (ti : TypeInfo) : Except QueryErr (String × Bool) := do
  let parts ← order.parts
  match parts.1 with
  -- An order without a field name.
  | none => .error .noFieldName
  | some name =>
    if !ti.fieldNames.contains name then .error (.unknownField name)
    else if parts.2 ≠ some "asc" ∧ parts.2 ≠ some "desc" then .error .direction
    -- The postings of a list field have several keys for a row.
    else if ti.listFields.contains name then .error (.multivalued name)
    else .ok (name, decide (parts.2 = some "desc"))

/-- The key a value is ordered by; `None` has none. -/
def Val.orderKey {ρ : Type} : Val ρ → Option Key
  | .scalar s => some s.key
  | _ => .none

/-- The keys an index has had for a field compare with each other: they are of one
    family. A key whose posting is empty counts too, since a window goes through the
    keys. -/
structure Comparable (ci : ClassIndexes) (f : String) (fm : Family) : Prop where
  notNan : fm ≠ .nan
  keys : ∀ k, (ci.posting? f (some k)).isSome → k.family = fm

section Windows

theorem validateWindow_ok (limit : Option Nat) (offset : Nat) :
    validateWindow (limit.map Nat.cast) offset = .ok ⟨limit, offset⟩ := by
  cases limit with
  | none => simp [validateWindow]
  | some n =>
      have ho : ¬(offset : ℤ) < 0 := by omega
      have hn : ¬(n : ℤ) < 0 := by omega
      simp [validateWindow, ho, hn]

@[simp]
theorem mem_oidsOf {bm : Finset Nat} {oid : Nat} : oid ∈ oidsOf bm ↔ oid ∈ bm :=
  Finset.mem_sort _

theorem oidsOf_ascending (bm : Finset Nat) : (oidsOf bm).Pairwise (· < ·) :=
  (Finset.sortedLT_sort bm).pairwise

/-- A lazy window is the window of the whole list. -/
theorem windowIter_eq (w : Window) (candidate : Finset Nat) :
    windowIter w candidate = applyWindow w (oidsOf candidate) := by
  unfold windowIter applyWindow
  cases w.limit with
  | none => rfl
  | some n =>
      simp only [List.drop_take]
      rw [show w.offset + n - w.offset = n by omega]

theorem applyWindow_map {α β : Type} (g : α → β) (w : Window) (xs : List α) :
    applyWindow w (xs.map g) = (applyWindow w xs).map g := by
  unfold applyWindow
  cases w.limit with
  | none => rw [List.map_drop]
  | some n => simp only [List.map_drop, List.map_take]

theorem applyWindow_nil {α : Type} (w : Window) : applyWindow w ([] : List α) = [] := by
  unfold applyWindow
  cases w.limit <;> simp

theorem mem_of_mem_applyWindow {α : Type} {w : Window} {a : α} {xs : List α}
    (h : a ∈ applyWindow w xs) : a ∈ xs := by
  unfold applyWindow at h
  cases hlimit : w.limit with
  | none =>
      rw [hlimit] at h
      exact List.mem_of_mem_drop h
  | some n =>
      rw [hlimit] at h
      exact List.mem_of_mem_drop (List.mem_of_mem_take h)

/-- A read off the postings that stops early is the window of the whole read. -/
theorem windowedIndexOrder_eq (ci : ClassIndexes) (matched : Finset Nat) (f : String)
    (desc : Bool) (w : Window) :
    windowedIndexOrder ci matched f desc w =
      (orderViaIndex ci matched f desc).map (applyWindow w) := by
  unfold windowedIndexOrder orderViaIndex
  cases orderKeys ci f desc with
  | error e => cases w.limit <;> rfl
  | ok keys =>
      cases hlimit : w.limit with
      | none =>
          simp only [Except.map, applyWindow, hlimit]
      | some n =>
          simp only [Except.map, applyWindow, hlimit]
          have hwindow : ∀ xs : List Nat, (xs.take (w.offset + n)).drop w.offset =
              (xs.drop w.offset).take n := by
            intro xs
            rw [List.drop_take, show w.offset + n - w.offset = n by omega]
          rcases collect_spec (fun k => matchedUnder ci matched f (some k)) (w.offset + n) keys []
            with hall | ⟨got, more, hgot, hfull, hmore⟩
          · -- Every key was looked at.
            rw [hall, List.nil_append]
            by_cases hstop : w.offset + n ≤
                (keys.flatMap fun k => matchedUnder ci matched f (some k)).length
            · simp only [hstop, decide_true, Bool.or_true, if_true]
              rw [← hwindow, List.take_append_of_le_length hstop]
            · simp only [hstop, decide_false, Bool.or_false, Bool.false_eq_true, if_false]
              rw [hwindow]
          · -- The keys looked at fill the window.
            rw [List.nil_append] at hmore
            rw [hgot, hmore]
            simp only [Bool.true_or, if_true]
            rw [← hwindow, List.append_assoc, List.take_append_of_le_length hfull]

end Windows

section Spec

variable {ρ : Type} [DecidableEq ρ] {fam : String → Family} {ti : TypeInfo} {rows : Rows}
  {lost : Lost} {ci : ClassIndexes} {view : Nat → String → Val ρ} {f : String} {fm : Family}

/-- The keys of a field in the asked direction. -/
theorem orderKeys_spec (hs : Sound fam ci) (hb : ci.building = false)
    (hcomp : Comparable ci f fm) (desc : Bool) :
    ∃ keys, orderKeys ci f desc = .ok keys ∧
      (keys.Pairwise fun k j => directed Key.lt desc k j = .ok true) ∧
      ∀ k, k ∈ keys ↔ (ci.posting? f (some k)).isSome := by
  unfold orderKeys
  by_cases hf : f ∈ ci.sortedFields
  · rw [if_pos (by simpa using hf)]
    refine ⟨_, rfl, ?_, fun k => ?_⟩
    · cases desc with
      | false => exact hs.ascending hb f hf
      | true => exact List.pairwise_reverse.mpr (hs.ascending hb f hf)
    · rw [← hs.run hb f hf]
      cases desc <;> simp
  · rw [if_neg (by simpa using hf)]
    -- The distinct keys are sorted as they are: none of them ties with another.
    have hfam : ∀ k ∈ ci.distinctKeys f, k.family = fm := fun k hk =>
      hcomp.keys k ((mem_distinctKeys ci f k).mp hk)
    have hkeyed : Keyed Key.lt (Key.ltOf (ci.decimals f)) (fun k : Key => some k)
        (fun k => k.family = fm) (ci.distinctKeys f) := by
      refine ⟨fun k hk => ⟨k, rfl, hfam k hk⟩, fun a ha b hb k j hk hj => ?_⟩
      rw [← Option.some.inj hk, ← Option.some.inj hj]
      exact Key.ltOf_eq _ hcomp.notNan (hfam a ha) (hfam b hb)
    have hnodup : (ci.distinctKeys f).Pairwise fun a b => a ≠ b := distinctKeys_nodup ci f
    rcases stableSort_spec (Key.orderedOn_family fm hcomp.notNan) desc hkeyed hnodup with
      ⟨keys, hsort, harr, hperm⟩
    refine ⟨keys, hsort, harr.imp fun {k j} hkj => ?_, fun k => ?_⟩
    · rcases (precedes_some rfl rfl).mp hkj with hlt | ⟨hkj, hne⟩
      · exact hlt
      · exact absurd hkj hne
    · rw [hperm.mem_iff, mem_distinctKeys]

omit [DecidableEq ρ] in
/-- The key a row is ordered by is the one key it is indexed under. -/
theorem orderKey_of_indexKeys {v : Val ρ} {ks : List (Option Key)}
    (h : v.indexKeys false = .ok ks) : ks = [v.orderKey] := by
  cases v <;> simp_all [Val.indexKeys, Val.scalarKey, Except.map, Val.orderKey]

omit [DecidableEq ρ] in
/-- A read off the postings is arranged by the values of the field. -/
theorem orderViaIndex_spec (hrep : Represents ti rows lost ci) (hs : Sound fam ci)
    (hb : ci.building = false) (hview : Views ti rows view) (hf : f ∈ ti.eqIndexFields)
    (hl : f ∉ ti.listFields) (hcomp : Comparable ci f fm) {matched : Finset Nat}
    (hmatched : ∀ oid ∈ matched, (rows oid).isSome) (desc : Bool) :
    ∃ xs, orderViaIndex ci matched f desc = .ok xs ∧
      Arranged Key.lt desc (fun oid => (view oid f).orderKey) (· < ·) xs ∧
      ∀ oid, oid ∈ xs ↔ oid ∈ matched := by
  rcases orderKeys_spec hs hb hcomp desc with ⟨keys, hkeys, hdir, hall⟩
  have hunder : ∀ k oid, oid ∈ matchedUnder ci matched f k ↔
      oid ∈ matched ∧ (view oid f).orderKey = k := by
    intro k oid
    rw [matchedUnder, mem_oidsOf, Finset.mem_inter, hrep.posting f hf, and_comm]
    refine and_congr_right fun hoid => ?_
    have hone := orderKey_of_indexKeys (view_scalar hview
      ((ti.mem_maintainedFields f).mpr (Or.inl hf)) hl (hmatched oid hoid)).1
    rw [hone, List.mem_singleton, eq_comm]
  refine ⟨_, by rw [orderViaIndex, hkeys]; rfl, ?_, fun oid => ?_⟩
  · exact groups_arranged hdir (fun k _ oid hoid => ((hunder (some k) oid).mp hoid).2)
      (fun k _ => oidsOf_ascending _) (fun oid hoid => ((hunder none oid).mp hoid).2)
      (oidsOf_ascending _)
  · rw [List.mem_append, List.mem_flatMap]
    constructor
    · rintro (⟨k, -, hoid⟩ | hoid)
      · exact ((hunder (some k) oid).mp hoid).1
      · exact ((hunder none oid).mp hoid).1
    · intro hoid
      cases hkey : (view oid f).orderKey with
      | none => exact Or.inr ((hunder none oid).mpr ⟨hoid, hkey⟩)
      | some k =>
          refine Or.inl ⟨k, ?_, (hunder (some k) oid).mpr ⟨hoid, hkey⟩⟩
          -- A key some row has is among those of the field.
          have hmem := (hunder (some k) oid).mpr ⟨hoid, hkey⟩
          rw [matchedUnder, mem_oidsOf, Finset.mem_inter] at hmem
          rcases (mem_posting_iff ci f (some k) oid).mp hmem.1 with ⟨p, hp, -⟩
          rw [hall, hp]
          rfl

/-- Sorting by a value arranges by the key of the value. -/
theorem orderByValue_spec {α : Type} {valueOf : α → Val ρ} {R : α → α → Prop} (hfm : fm ≠ .nan)
    {xs : List α} (hxs : xs.Pairwise R)
    (hvalues : ∀ a ∈ xs, valueOf a = .none ∨ ∃ s, valueOf a = .scalar s ∧ s.key.family = fm)
    (desc : Bool) :
    ∃ ys, orderByValue valueOf desc xs = .ok ys ∧
      Arranged Key.lt desc (fun a => (valueOf a).orderKey) R ys ∧ ys.Perm xs := by
  -- Rows with a value are sorted by their keys, rows without one stand at the end.
  have hpresent : ∀ a ∈ xs.filter (fun a => !(valueOf a).isNone),
      ∃ s, valueOf a = .scalar s ∧ s.key.family = fm := by
    intro a ha
    rcases List.mem_filter.mp ha with ⟨hmem, hne⟩
    rcases hvalues a hmem with hnone | hs
    · simp [hnone, Val.isNone] at hne
    · exact hs
  have habsent : ∀ a ∈ xs.filter (fun a => (valueOf a).isNone),
      (valueOf a).orderKey = none := by
    intro a ha
    rcases List.mem_filter.mp ha with ⟨hmem, hnone⟩
    rcases hvalues a hmem with h | ⟨s, h, -⟩
    · rw [h]
      rfl
    · simp [h, Val.isNone] at hnone
  have hkeyed : Keyed Key.lt (fun a b => (valueOf a).pyLt (valueOf b))
      (fun a => (valueOf a).orderKey) (fun k => k.family = fm)
      (xs.filter fun a => !(valueOf a).isNone) := by
    refine ⟨fun a ha => ?_, fun a ha b hb k j hk hj => ?_⟩
    · rcases hpresent a ha with ⟨s, hs, hfam⟩
      exact ⟨s.key, by rw [hs]; rfl, hfam⟩
    · rcases hpresent a ha with ⟨s, hs, hsf⟩
      rcases hpresent b hb with ⟨t, ht, htf⟩
      rw [hs, Val.orderKey, Option.some.injEq] at hk
      rw [ht, Val.orderKey, Option.some.injEq] at hj
      rw [hs, ht, Val.pyLt, Scalar.lt_eq (hsf ▸ hfm) (htf ▸ hfm), hk, hj]
  rcases stableSort_spec (Key.orderedOn_family fm hfm) desc hkeyed (hxs.filter _) with
    ⟨sorted, hsort, harr, hperm⟩
  refine ⟨sorted ++ xs.filter (fun a => (valueOf a).isNone), ?_, ?_, ?_⟩
  · unfold orderByValue
    simp only [hsort, Except.map]
  -- What stands at the end precedes nothing that has a key.
  · rw [Arranged, List.pairwise_append]
    refine ⟨harr, ?_, fun a ha b hb => ?_⟩
    · refine List.Pairwise.imp_of_mem ?_ (hxs.filter _)
      intro a b ha hb hab
      simp only [Precedes, habsent a ha, habsent b hb]
      exact hab
    · rcases hpresent a (hperm.mem_iff.mp ha) with ⟨s, hs, -⟩
      have hkey : (valueOf a).orderKey = some s.key := by rw [hs, Val.orderKey]
      simp only [Precedes, hkey, habsent b hb]
  · refine (hperm.append_right _).trans (List.perm_append_comm.trans ?_)
    exact List.filter_append_perm _ xs

end Spec

end DataCrystal
