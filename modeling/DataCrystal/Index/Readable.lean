import Mathlib.Algebra.Order.Ring.Cast
import DataCrystal.Permissions
import DataCrystal.Index.Agreement

/-!
# Readable Rows as a Bitmap

`canReadRow` decides for one record whether a principal may read it.
`readableBitmap` answers for a whole class at once: the records the principal
owns, and for each group it holds the records shared with that group whose read
floor is at most the level held there. Root reads everything.

The predicate takes the best level over the groups of the record, and a group
the principal does not hold contributes `noStanding`. The bitmap never looks at
such a group. The two therefore part on the records whose read floor does not
exceed `noStanding`: the predicate lets such a record be read by everybody,
unless every group of the record is held at a lower level still, and the bitmap
by the holders of its groups. `readsAlike_iff` states this exactly.

## Main definitions

* `Held`: The groups the bitmap looks at.
* `readableBitmap`: The readable OIDs of a class.
* `LabelledRows`: The rows of an index carry given labels.
* `ReadsAlike`: The bitmap and the predicate agree on a label.

## Theorems

* `readableBitmap_spec`: The rows the bitmap holds.
* `readsAlike_iff`: When the bitmap and the predicate agree on a label.
-/

namespace DataCrystal

open ClassIndexes

/-- The groups a principal holds a level in, the world among them. -/
def Held (p : Principal) (g : ℤ) : Prop := (p.memberships.get? g).isSome ∨ g = world

instance (p : Principal) (g : ℤ) : Decidable (Held p g) :=
  inferInstanceAs (Decidable (_ ∨ _))

/-- The memberships with the implicit one of the world. -/
def impliedMemberships (p : Principal) : Dict ℤ ℤ :=
  if p.memberships.contains world then p.memberships else p.memberships.set world viewer

/-- Union the readable part of one group. -/
def addReadable (ci : ClassIndexes) (acc : Finset Nat) (m : ℤ × ℤ) :
    Except ValueErr (Finset Nat) :=
  let inGroup := ci.posting "_dc_groups" (some (.fin m.1))
  -- No record is shared with the group.
  if inGroup = ∅ then .ok acc
  else
    -- The records whose floor the level reaches.
    (rangeSlice ci "_dc_read_floor" .le (.int m.2 : Val Token)).map fun slice =>
      acc ∪ (inGroup ∩ slice)

/-- The OIDs of a protected class that a principal may read; `none` for root,
    which reads the whole extent. -/
def readableBitmap (p : Principal) (ci : ClassIndexes) :
    Except ValueErr (Option (Finset Nat)) :=
  if isRoot p then .ok none
  else
    -- The anonymous principal owns nothing.
    let owned := if p.uid ≠ 0 then ci.posting "_dc_owner" (some (.fin p.uid)) else ∅
    ((impliedMemberships p).entries.foldlM (addReadable ci) owned).map some

/-- The rows of an index carry the given labels, in the columns that are indexed for
    the fence: the owner and the read floor as one key each, the groups as one for
    each of them. -/
structure LabelledRows (rows : Rows) (labels : Nat → Labels) : Prop where
  owner : ∀ oid r, rows oid = some r → r "_dc_owner" = [some (.fin (labels oid).owner)]
  groups : ∀ oid r, rows oid = some r →
    r "_dc_groups" = (labels oid).groups.map fun g : ℤ => some (.fin g)
  readFloor : ∀ oid r, rows oid = some r →
    r "_dc_read_floor" = [some (.fin (labels oid).readFloor)]

/-- The bitmap and the predicate agree on a label: the principal is root or the
    owner, or a group it holds clears the read floor, or the floor is above
    `noStanding`, or the principal holds every group of a shared record. -/
def ReadsAlike (p : Principal) (l : Labels) : Prop :=
  isRoot p = true ∨ isOwner p l.owner = true ∨
    (∃ g ∈ l.groups, Held p g ∧ l.readFloor ≤ level p g) ∨ noStanding < l.readFloor ∨
    (l.groups ≠ [] ∧ ∀ g ∈ l.groups, Held p g)

theorem impliedMemberships_iff (p : Principal) (g lvl : ℤ) :
    (g, lvl) ∈ (impliedMemberships p).entries ↔ Held p g ∧ lvl = level p g := by
  rw [← Dict.get?_eq_some_iff, impliedMemberships, Held, level, Dict.getD]
  by_cases hw : p.memberships.contains world = true
  · rw [if_pos hw]
    have hworld : (p.memberships.get? world).isSome :=
      (Dict.isSome_get?_iff _ _).mpr ((Dict.contains_iff _ _).mp hw)
    constructor
    · intro h
      simp [h]
    · rintro ⟨hheld, rfl⟩
      have hsome : (p.memberships.get? g).isSome := by
        rcases hheld with hheld | hg
        · exact hheld
        · rw [hg]
          exact hworld
      rcases Option.isSome_iff_exists.mp hsome with ⟨u, hu⟩
      simp [hu]
  · rw [if_neg hw, Dict.get?_set]
    have hnone : p.memberships.get? world = none := by
      rw [← Option.not_isSome_iff_eq_none, Dict.isSome_get?_iff, ← Dict.contains_iff]
      exact hw
    by_cases hg : g = world
    · simp [hg, hnone, eq_comm]
    · rw [if_neg hg]
      cases hm : p.memberships.get? g with
      | none => simp [hg]
      | some u => simp [eq_comm]

/-- Below `noStanding` a group that is not held counts as held. -/
theorem level_of_not_held {p : Principal} {g : ℤ} (h : ¬Held p g) : level p g = noStanding := by
  rw [Held, not_or, Option.not_isSome_iff_eq_none] at h
  rw [level, Dict.getD, h.1, Option.getD_none, if_neg h.2]

section Spec

variable {fam : String → Family} {ti : TypeInfo} {rows : Rows} {lost : Lost} {ci : ClassIndexes}
  {labels : Nat → Labels}

theorem mem_permSpec {s : FieldSpec} (hprot : ti.isProtected = true) (hs : s ∈ permSpecs) :
    s ∈ ti.specs := by
  rw [TypeInfo.specs, if_pos hprot]
  exact List.mem_append_right _ hs

theorem label_fields (hprot : ti.isProtected = true) : "_dc_owner" ∈ ti.eqIndexFields ∧
    "_dc_groups" ∈ ti.eqIndexFields ∧ "_dc_read_floor" ∈ ti.sortedFields := by
  refine ⟨?_, ?_, ?_⟩
  · exact (ti.mem_eqIndexFields _).mpr
      ⟨permSpecs[0], mem_permSpec hprot (by decide), rfl, rfl⟩
  · exact (ti.mem_eqIndexFields _).mpr
      ⟨permSpecs[1], mem_permSpec hprot (by decide), rfl, rfl⟩
  · exact (ti.mem_sortedFields _).mpr
      ⟨permSpecs[2], mem_permSpec hprot (by decide), rfl, rfl⟩

/-- The slice of a level holds the rows whose read floor is at most the level. -/
theorem floorSlice_spec (hrep : Represents ti rows lost ci) (hs : Sound fam ci)
    (hb : ci.building = false) (hprot : ti.isProtected = true)
    (hfam : fam "_dc_read_floor" = .number) (hlab : LabelledRows rows labels) (lvl : ℤ) :
    ∃ slice, rangeSlice ci "_dc_read_floor" .le (.int lvl : Val Token) = .ok slice ∧
      ∀ oid, oid ∈ slice ↔ (rows oid).isSome ∧ (labels oid).readFloor ≤ lvl := by
  rcases rangeSlice_keys (ρ := Token) hrep hs hb (label_fields hprot).2.2 .le (.int lvl)
    (by rw [hfam]; rfl) with ⟨slice, hslice, hmem⟩
  refine ⟨slice, hslice, fun oid => ?_⟩
  rw [hmem]
  cases hr : rows oid with
  | none => simp
  | some r =>
      rw [recalled_some, hlab.readFloor oid r hr]
      simp only [List.mem_singleton, Option.some.injEq, exists_eq_left, Option.isSome_some,
        true_and, keyTest, Scalar.key_int, Key.lt, Key.ltAs, Except.ok.injEq, decide_eq_true_eq,
        Key.fin.injEq]
      rw [← le_iff_lt_or_eq, Int.cast_le]

/-- The rows of a group that a level of the group reads. -/
theorem addReadable_spec (hrep : Represents ti rows lost ci) (hs : Sound fam ci)
    (hb : ci.building = false) (hprot : ti.isProtected = true)
    (hfam : fam "_dc_read_floor" = .number) (hlab : LabelledRows rows labels) (m : ℤ × ℤ)
    (acc : Finset Nat) :
    ∃ acc', addReadable ci acc m = .ok acc' ∧ ∀ oid, oid ∈ acc' ↔
      oid ∈ acc ∨ ((rows oid).isSome ∧ m.1 ∈ (labels oid).groups ∧
        (labels oid).readFloor ≤ m.2) := by
  have hgroup : ∀ oid, oid ∈ ci.posting "_dc_groups" (some (.fin m.1)) ↔
      (rows oid).isSome ∧ m.1 ∈ (labels oid).groups := by
    intro oid
    rw [hrep.posting _ (label_fields hprot).2.1]
    cases hr : rows oid with
    | none => simp
    | some r =>
        rw [recalled_some, hlab.groups oid r hr]
        simp
  rw [addReadable]
  by_cases hempty : ci.posting "_dc_groups" (some (.fin m.1)) = ∅
  · refine ⟨acc, if_pos hempty, fun oid => ⟨Or.inl, fun h => h.resolve_right fun hr => ?_⟩⟩
    have hmem := (hgroup oid).mpr ⟨hr.1, hr.2.1⟩
    rw [hempty] at hmem
    exact absurd hmem (Finset.notMem_empty oid)
  · rcases floorSlice_spec hrep hs hb hprot hfam hlab m.2 with ⟨slice, hslice, hmem⟩
    refine ⟨_, by rw [if_neg hempty, hslice]; rfl, fun oid => ?_⟩
    rw [Finset.mem_union, Finset.mem_inter, hgroup, hmem]
    tauto

/-- The rows the bitmap of a principal other than root holds. -/
theorem readableBitmap_spec (hrep : Represents ti rows lost ci) (hs : Sound fam ci)
    (hb : ci.building = false) (hprot : ti.isProtected = true)
    (hfam : fam "_dc_read_floor" = .number) (hlab : LabelledRows rows labels) (p : Principal)
    (hroot : isRoot p = false) :
    ∃ bm, readableBitmap p ci = .ok (some bm) ∧ ∀ oid, oid ∈ bm ↔ (rows oid).isSome ∧
      (isOwner p (labels oid).owner = true ∨
        ∃ g ∈ (labels oid).groups, Held p g ∧ (labels oid).readFloor ≤ level p g) := by
  -- By induction on the memberships: what was read already, or a group of these.
  have hfold : ∀ (ms : List (ℤ × ℤ)) (acc : Finset Nat), ∃ bm,
      ms.foldlM (addReadable ci) acc = .ok bm ∧ ∀ oid, oid ∈ bm ↔ oid ∈ acc ∨
        ∃ m ∈ ms, (rows oid).isSome ∧ m.1 ∈ (labels oid).groups ∧
          (labels oid).readFloor ≤ m.2 := by
    intro ms
    induction ms with
    | nil => exact fun acc => ⟨acc, rfl, by simp⟩
    | cons m ms ih =>
        intro acc
        rcases addReadable_spec hrep hs hb hprot hfam hlab m acc with ⟨acc', hstep, hacc⟩
        rcases ih acc' with ⟨bm, hrun, hbm⟩
        refine ⟨bm, by rw [List.foldlM_cons, hstep]; exact hrun, fun oid => ?_⟩
        rw [hbm, hacc]
        simp only [List.mem_cons, exists_eq_or_imp, or_assoc]
  rcases hfold (impliedMemberships p).entries
    (if p.uid ≠ 0 then ci.posting "_dc_owner" (some (.fin p.uid)) else ∅) with ⟨bm, hrun, hbm⟩
  refine ⟨bm, ?_, fun oid => ?_⟩
  · simp only [readableBitmap, hroot, Bool.false_eq_true, if_false, hrun, Except.map]
  -- The owned rows are a posting, but nobody is the owner of the anonymous.
  have howned : oid ∈ (if p.uid ≠ 0 then ci.posting "_dc_owner" (some (.fin p.uid)) else ∅) ↔
      (rows oid).isSome ∧ isOwner p (labels oid).owner = true := by
    by_cases hu : p.uid = 0
    · simp [hu, isOwner]
    · rw [if_pos hu, hrep.posting _ (label_fields hprot).1]
      cases hr : rows oid with
      | none => simp
      | some r =>
          rw [recalled_some, hlab.owner oid r hr]
          simp [isOwner, hu, eq_comm]
  rw [hbm, howned, and_or_left]
  refine or_congr_right ⟨?_, ?_⟩
  · rintro ⟨⟨g, lvl⟩, hm, hrow, hg, hfloor⟩
    rcases (impliedMemberships_iff p g lvl).mp hm with ⟨hheld, rfl⟩
    exact ⟨hrow, g, hg, hheld, hfloor⟩
  · rintro ⟨hrow, g, hg, hheld, hfloor⟩
    exact ⟨(g, level p g), (impliedMemberships_iff p g _).mpr ⟨hheld, rfl⟩, hrow, hg, hfloor⟩

/-- On one label, owning or holding a group that clears the floor is what the
    predicate asks, where the two read alike. -/
theorem readsAlike_iff (p : Principal) (l : Labels) (hroot : isRoot p = false) :
    ((isOwner p l.owner = true ∨ ∃ g ∈ l.groups, Held p g ∧ l.readFloor ≤ level p g) ↔
      canReadRow p l.owner l.groups l.readFloor = true) ↔ ReadsAlike p l := by
  rw [canReadRow_iff, ReadsAlike, hroot]
  by_cases howner : isOwner p l.owner = true
  · simp [howner]
  have hauth := le_authorityTowards_iff p l.owner l.groups l.readFloor
    (Bool.eq_false_of_not_eq_true howner)
  simp only [howner, hauth, Bool.false_eq_true, false_or]
  by_cases hheld : ∃ g ∈ l.groups, Held p g ∧ l.readFloor ≤ level p g
  · rcases hheld with ⟨g, hg, hh, hl⟩
    exact ⟨fun _ => Or.inl ⟨g, hg, hh, hl⟩,
      fun _ => ⟨fun _ => Or.inr ⟨g, hg, hl⟩, fun _ => ⟨g, hg, hh, hl⟩⟩⟩
  · simp only [hheld, false_iff, false_or]
    constructor
    · intro hno
      rw [not_or] at hno
      by_cases hfloor : noStanding < l.readFloor
      · exact Or.inl hfloor
      · refine Or.inr ⟨fun hg => hno.1 ⟨hg, not_lt.mp hfloor⟩, fun g hg => ?_⟩
        by_contra hc
        exact hno.2 ⟨g, hg, by rw [level_of_not_held hc]; exact not_lt.mp hfloor⟩
    · rintro (hfloor | ⟨hne, hall⟩) (⟨hg, hle⟩ | ⟨g, hg, hle⟩)
      · exact absurd hle (not_le.mpr hfloor)
      · by_cases hh : Held p g
        · exact hheld ⟨g, hg, hh, hle⟩
        · rw [level_of_not_held hh] at hle
          exact absurd hle (not_le.mpr hfloor)
      · exact hne hg
      · exact hheld ⟨g, hg, hall g hg, hle⟩

/-- The rows of a protected class carry the labels their columns hold. -/
theorem labelledRows_of_columns {rows : List (Nat × (String → Val Token))}
    (hprot : ti.isProtected = true)
    (hlab : ∀ e ∈ rows, ∀ f v, (labels e.1).column f = some v → e.2 f = v) :
    LabelledRows (rowsOf ti rows) labels := by
  have hscalar : ∀ s ∈ permSpecs, s.multivalued = false → ti.listFields.contains s.name = false := by
    intro s hs hm
    rw [List.contains_eq_mem, decide_eq_false_iff_not, ti.mem_listFields]
    rintro ⟨t, ht, htm, hname⟩
    rw [ti.spec_unique ht (mem_permSpec hprot hs) hname, hm] at htm
    simp at htm
  have hlist : ti.listFields.contains "_dc_groups" = true := by
    rw [List.contains_eq_mem, decide_eq_true_eq, ti.mem_listFields]
    exact ⟨permSpecs[1], mem_permSpec hprot (by decide), rfl, rfl⟩
  have howner : ti.listFields.contains "_dc_owner" = false :=
    hscalar permSpecs[0] (by decide) rfl
  have hfloor : ti.listFields.contains "_dc_read_floor" = false :=
    hscalar permSpecs[2] (by decide) rfl
  refine ⟨fun oid r hr => ?_, fun oid r hr => ?_, fun oid r hr => ?_⟩ <;>
    rcases rowsOf_eq_some hr with ⟨e, he, rfl, rfl, -⟩
  · rw [rowKeys, hlab e he "_dc_owner" _ rfl, howner]
    rfl
  · rw [rowKeys, hlab e he "_dc_groups" _ rfl, hlist]
    have hmap : ∀ gs : List ℤ, (gs.map (Val.int : ℤ → Val Token)).mapM Val.scalarKey =
        .ok (gs.map fun g : ℤ => some (Key.fin g)) := by
      intro gs
      induction gs with
      | nil => rfl
      | cons g gs ih =>
          rw [List.map_cons, List.mapM_cons, ih]
          rfl
    simp only [Val.indexKeys, Val.ints, hmap, if_true]
  · rw [rowKeys, hlab e he "_dc_read_floor" _ rfl, hfloor]
    rfl

end Spec

end DataCrystal
