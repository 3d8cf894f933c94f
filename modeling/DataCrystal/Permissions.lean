import DataCrystal.Schema

/-!
# Principals and Labels

Who acts, and what they may do to a labelled record.

A principal holds a level in each of its groups and, without saying so, at
least `viewer` in the world. Its authority towards a record is the best level
it holds in a group the record is shared with; the owner of an unshared record
acts at their personal best. Root is a principal whose world level is
`executive`, and it bypasses every check.

The gates are the checks a commit makes on the labelled records it carries.
Each one answers whether the write is allowed, and a denial names the rule it
broke. `gateLabelChanges` compares the staged labels with a baseline: the prior
labels of a persisted record, the birth labels of a new one.

## Main definitions

* `Principal`: A uid and its memberships.
* `level`, `authorityTowards`: What a principal holds.
* `isOwner`, `isRoot`, `canReadRow`: The predicates over plain label values.
* `Denial`: The rule a write broke.
* `gatePersistedRecord`, `gateLabelChanges`, `gateActorMemberships`,
  `gateDelete`: The checks of the write fence.

## Theorems

* `le_authorityTowards_iff`: Authority reaches a level through one group.
* `gatePersistedRecord_ok_iff`, `gateLabelChanges_ok_iff`, `gateDelete_ok_iff`: What a
  passed check says.
-/

namespace DataCrystal

/-- A session identity: a uid and the level held in each group. -/
structure Principal where
  uid : ℤ
  memberships : Dict ℤ ℤ := Dict.empty

instance : Inhabited Principal := ⟨{ uid := 0 }⟩

/-- The level held in a group. -/
def level (p : Principal) (g : ℤ) : ℤ :=
  p.memberships.getD g (if g = world then viewer else noStanding)

/-- Uid 0 is anonymous and owns nothing. -/
def isOwner (p : Principal) (owner : ℤ) : Bool := p.uid ≠ 0 && owner = p.uid

/-- The greatest of a list of levels, or a default for the empty list. -/
def maxLevel (dflt : ℤ) : List ℤ → ℤ
  | [] => dflt
  | x :: xs => xs.foldl max x

/-- The highest level held in a group the record is shared with. The owner of
    an unshared record acts at their personal best. -/
def authorityTowards (p : Principal) (owner : ℤ) (groups : List ℤ) : ℤ :=
  let levels := groups.map (level p)
  -- Unshared: no group says at which level the owner acts.
  if isOwner p owner && levels.isEmpty then
    maxLevel noStanding [maxLevel viewer p.memberships.values]
  else
    maxLevel noStanding levels

/-- The store root: `executive` held in the world, by a principal with a uid. -/
def isRoot (p : Principal) : Bool :=
  p.uid ≠ 0 && executive ≤ p.memberships.getD world viewer

/-- Whether a principal may read a record with these label values. -/
def canReadRow (p : Principal) (owner : ℤ) (groups : List ℤ) (readFloor : ℤ) : Bool :=
  isRoot p || isOwner p owner || readFloor ≤ authorityTowards p owner groups

/-- The rule a denied write broke. -/
inductive Denial
  /-- The anonymous principal creates no protected record. -/
  | anonymousCreate
  /-- A new record is owned by the principal that registered it. -/
  | forgedOwner (staged birth : ℤ)
  /-- The record's write floor is above the authority held. -/
  | belowWriteFloor (floor held : ℤ)
  /-- Ownership does not change after birth. -/
  | ownerChanged (prior staged : ℤ)
  /-- A record is shared into a group without standing there. -/
  | noStandingIn (group : ℤ)
  /-- A floor is set above the authority held. -/
  | floorAboveCeiling (staged ceiling : ℤ)
  /-- An actor is granted a level above the one held. -/
  | grantAboveLevel (group lvl held : ℤ)
  deriving DecidableEq, Repr

/-- A write to a persisted record clears its write floor and keeps its owner;
    the prior labels are the baseline of the label checks. -/
def gatePersistedRecord (p : Principal) (staged prior : Labels) : Except Denial Labels :=
  let held := authorityTowards p prior.owner prior.groups
  if held < prior.writeFloor then .error (.belowWriteFloor prior.writeFloor held)
  else if staged.owner ≠ prior.owner then .error (.ownerChanged prior.owner staged.owner)
  else .ok prior

/-- The first group added to the baseline in which the principal has no
    standing. -/
def refusedGroup (p : Principal) (staged base : List ℤ) : Option ℤ :=
  staged.find? fun g => g ∉ base && level p g = noStanding

/-- The staged groups and floors against the baseline and the authority
    towards the staged labels. -/
def gateLabelChanges (p : Principal) (staged base : Labels) : Except Denial Unit :=
  -- The authority is of the labels as they are to be.
  let ceiling := authorityTowards p staged.owner staged.groups
  match refusedGroup p staged.groups base.groups with
  | some g => .error (.noStandingIn g)
  | none =>
    -- A floor that stays is not gated.
    if staged.readFloor ≠ base.readFloor && ceiling < staged.readFloor then
      .error (.floorAboveCeiling staged.readFloor ceiling)
    else if staged.writeFloor ≠ base.writeFloor && ceiling < staged.writeFloor then
      .error (.floorAboveCeiling staged.writeFloor ceiling)
    else .ok ()

/-- Every changed membership of a staged actor is at most the level held. -/
def gateActorMemberships (p : Principal) (staged prior : Dict ℤ ℤ) : Except Denial Unit :=
  match staged.entries.find? fun e => prior.get? e.1 ≠ some e.2 && level p e.1 < e.2 with
  | some e => .error (.grantAboveLevel e.1 e.2 (level p e.1))
  | none => .ok ()

/-- A delete is a write, so the write floor binds. -/
def gateDelete (p : Principal) (prior : Labels) : Except Denial Unit :=
  let held := authorityTowards p prior.owner prior.groups
  if held < prior.writeFloor then .error (.belowWriteFloor prior.writeFloor held) else .ok ()

/-- A maximum reaches a bound through one of its elements. -/
theorem le_foldl_max_iff (b : ℤ) (xs : List ℤ) :
    ∀ x : ℤ, b ≤ xs.foldl max x ↔ b ≤ x ∨ ∃ y ∈ xs, b ≤ y := by
  induction xs with
  | nil => intro x; simp
  | cons y ys ih =>
      intro x
      rw [List.foldl_cons, ih, le_max_iff]
      simp only [List.mem_cons, exists_eq_or_imp, or_assoc]

theorem le_maxLevel_iff (b dflt : ℤ) (xs : List ℤ) :
    b ≤ maxLevel dflt xs ↔ (xs = [] ∧ b ≤ dflt) ∨ ∃ y ∈ xs, b ≤ y := by
  cases xs with
  | nil => simp [maxLevel]
  | cons x xs =>
      rw [maxLevel, le_foldl_max_iff]
      simp

/-- Towards a record it does not own, a principal's authority reaches a level
    through one of the record's groups, or the record is in no group. -/
theorem le_authorityTowards_iff (p : Principal) (owner : ℤ) (groups : List ℤ) (b : ℤ)
    (h : isOwner p owner = false) :
    b ≤ authorityTowards p owner groups ↔
      (groups = [] ∧ b ≤ noStanding) ∨ ∃ g ∈ groups, b ≤ level p g := by
  rw [authorityTowards, h, Bool.false_and, if_neg Bool.false_ne_true, le_maxLevel_iff]
  simp only [List.map_eq_nil_iff, List.mem_map, exists_exists_and_eq_and]

theorem canReadRow_iff (p : Principal) (owner : ℤ) (groups : List ℤ) (readFloor : ℤ) :
    canReadRow p owner groups readFloor = true ↔
      isRoot p = true ∨ isOwner p owner = true ∨ readFloor ≤ authorityTowards p owner groups := by
  simp [canReadRow, or_assoc]

theorem gatePersistedRecord_ok_iff (p : Principal) (staged prior base : Labels) :
    gatePersistedRecord p staged prior = .ok base ↔
      prior.writeFloor ≤ authorityTowards p prior.owner prior.groups ∧
        staged.owner = prior.owner ∧ base = prior := by
  rw [gatePersistedRecord]
  by_cases hfloor : authorityTowards p prior.owner prior.groups < prior.writeFloor
  · simp only [if_pos hfloor, reduceCtorEq, false_iff]
    exact fun h => absurd h.1 (not_le.mpr hfloor)
  · by_cases howner : staged.owner = prior.owner
    · simp only [if_neg hfloor, howner, ne_eq, not_true_eq_false, if_false, Except.ok.injEq]
      exact ⟨fun h => ⟨not_lt.mp hfloor, trivial, h.symm⟩, fun h => h.2.2.symm⟩
    · simp [if_neg hfloor, howner]

theorem refusedGroup_eq_none_iff (p : Principal) (staged base : List ℤ) :
    refusedGroup p staged base = none ↔
      ∀ g ∈ staged, g ∉ base → level p g ≠ noStanding := by
  simp [refusedGroup, List.find?_eq_none]

theorem gateLabelChanges_ok_iff (p : Principal) (staged base : Labels) :
    gateLabelChanges p staged base = .ok () ↔
      (∀ g ∈ staged.groups, g ∉ base.groups → level p g ≠ noStanding) ∧
        (staged.readFloor ≠ base.readFloor →
          staged.readFloor ≤ authorityTowards p staged.owner staged.groups) ∧
        (staged.writeFloor ≠ base.writeFloor →
          staged.writeFloor ≤ authorityTowards p staged.owner staged.groups) := by
  rw [gateLabelChanges, ← refusedGroup_eq_none_iff]
  cases hgroup : refusedGroup p staged.groups base.groups with
  | some g => simp
  | none =>
      simp only [Bool.and_eq_true, decide_eq_true_eq, true_and]
      split
      · rename_i hread
        simp only [reduceCtorEq, false_iff, not_and]
        intro hr
        exact absurd (hr hread.1) (not_le.mpr hread.2)
      · rename_i hread
        rw [not_and, not_lt] at hread
        split
        · rename_i hwrite
          simp only [reduceCtorEq, false_iff, not_and]
          intro _ hw
          exact absurd (hw hwrite.1) (not_le.mpr hwrite.2)
        · rename_i hwrite
          rw [not_and, not_lt] at hwrite
          exact ⟨fun _ => ⟨hread, hwrite⟩, fun _ => rfl⟩

theorem gateDelete_ok_iff (p : Principal) (prior : Labels) :
    gateDelete p prior = .ok () ↔
      prior.writeFloor ≤ authorityTowards p prior.owner prior.groups := by
  simp only [gateDelete]
  split
  · rename_i h
    simp [h]
  · rename_i h
    simp [not_lt.mp h]

end DataCrystal
