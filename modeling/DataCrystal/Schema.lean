import DataCrystal.Lib.Dict
import DataCrystal.Value

/-!
# Entity Classes

What the engine knows of one entity class: its fields in schema order, the
markers each field carries, and the defaults additive evolution fills missing
fields from.

The combinations of markers a class definition refuses are fields of
`FieldSpec` and `TypeInfo`, so a class that could not have been declared
cannot be built here either: a `Unique` field is a scalar, a `SortedIndex`
field is a scalar, an inverted field carries `Index`, a `Blob` field carries no
index marker, and no declared field takes a name of the four label columns.

A protected class carries those four columns after its own fields. A record
persisted before the class turned protected lacks them and reads as
`legacyFill`, which is not what a fresh record is born with: nobody owns it,
the world may read it and an administrator may write it.

## Main definitions

* `FieldSpec`: One field and its markers.
* `TypeInfo`: One entity class.
* `permFields`, `permSpecs`: The label columns of a protected class.
* `Labels`: The values of the four columns.
* `legacyFill`: The labels of a record that predates them.
* `TypeInfo.eqIndexFields`, `TypeInfo.maintainedFields`: The fields the
  indexes touch.
* `TypeInfo.fill`: The value of a field a persisted shape lacks.

## Theorems

* `fieldNames_nodup`: The field names of a class are distinct.
* `mem_maintainedFields`: The maintained fields are the equality-indexed and
  the unique ones.
-/

namespace DataCrystal

section Markers

/-! What the markers of a field that is written out need to agree. -/

variable {a b c : Bool}

theorem marker_off (h : false = true) : a = b := nomatch h

theorem markers_off (h : false = true) : a = false ∧ b = false ∧ c = false := nomatch h

end Markers

/-- One field of an entity class, with the markers it carries. -/
structure FieldSpec where
  name : String
  /-- References in the field hydrate as lazy handles. -/
  lazyRefs : Bool := false
  indexed : Bool := false
  unique : Bool := false
  /-- An indexed list field, whose postings are keyed by element. -/
  multivalued : Bool := false
  sorted : Bool := false
  /-- Raw bytes kept out of line. -/
  blob : Bool := false
  /-- The field may hold an entity reference. -/
  entityRef : Bool := true
  unique_scalar : unique = true → multivalued = false := by
    first | exact fun _ => rfl | exact fun h => marker_off h
  sorted_scalar : sorted = true → multivalued = false := by
    first | exact fun _ => rfl | exact fun h => marker_off h
  multivalued_indexed : multivalued = true → indexed = true := by
    first | exact fun _ => rfl | exact fun h => h
  blob_unmarked : blob = true → indexed = false ∧ unique = false ∧ sorted = false := by
    first | exact fun h => markers_off h | exact fun _ => markers_unset
  deriving DecidableEq

/-- The world group: every principal holds at least `viewer` in it. -/
def world : ℤ := 0

/-- The absence of a shared group; not a grantable level. -/
def noStanding : ℤ := -1

def viewer : ℤ := 0

def admin : ℤ := 500

def executive : ℤ := 600

/-- The label columns of a protected class, in schema order. -/
def permFields : List String := ["_dc_owner", "_dc_groups", "_dc_read_floor", "_dc_write_floor"]

/-- The specs of the label columns. The write floor carries no index: the gate
    decodes it from the prior record. -/
def permSpecs : List FieldSpec :=
  [{ name := "_dc_owner", indexed := true, entityRef := false },
   { name := "_dc_groups", indexed := true, multivalued := true, entityRef := false },
   { name := "_dc_read_floor", sorted := true, entityRef := false },
   { name := "_dc_write_floor", entityRef := false }]

/-- The labels of a protected record. -/
structure Labels where
  owner : ℤ
  groups : List ℤ
  readFloor : ℤ
  writeFloor : ℤ
  deriving DecidableEq, Repr

/-- The labels of a record persisted before its class turned protected. -/
def legacyFill : Labels := ⟨0, [world], viewer, admin⟩

/-- The value of a label column, as the column stores it. -/
def Labels.column {ρ : Type} (l : Labels) : String → Option (Val ρ)
  | "_dc_owner" => some (.int l.owner)
  | "_dc_groups" => some (.ints l.groups)
  | "_dc_read_floor" => some (.int l.readFloor)
  | "_dc_write_floor" => some (.int l.writeFloor)
  | _ => none

theorem unreserved_nil {s : FieldSpec} (h : s ∈ []) : s.name ∉ permFields :=
  absurd h List.not_mem_nil

/-- The fields an index maintains, among the declared fields of a class and its
    label columns. -/
def maintainedOf (dataSpecs : List FieldSpec) (isProtected : Bool) : List String :=
  ((dataSpecs ++ if isProtected then permSpecs else []).filter fun s =>
    s.indexed || s.sorted || s.unique).map FieldSpec.name

/-- One entity class. A default is built without a store, so it refers to
    nothing. -/
structure TypeInfo where
  /-- The declared fields, in order. -/
  dataSpecs : List FieldSpec
  /-- The declared fields that have a default. -/
  defaults : List (String × Val Empty) := []
  frozen : Bool := false
  isProtected : Bool := false
  /-- The maintained fields in the order a commit reads them in. The program
      iterates a set of their names, whose order is the hash seed's. -/
  relevant : List String := maintainedOf dataSpecs isProtected
  relevant_perm : relevant.Perm (maintainedOf dataSpecs isProtected) := by
    first | exact List.Perm.refl _ | decide
  names_nodup : (dataSpecs.map FieldSpec.name).Nodup := by
    first | exact List.nodup_nil | decide
  not_reserved : ∀ s ∈ dataSpecs, s.name ∉ permFields := by
    first | exact fun _ h => unreserved_nil h | decide

namespace TypeInfo

instance : Inhabited TypeInfo := ⟨{ dataSpecs := [] }⟩

/-- The fields in schema order: the declared ones, then the label columns. -/
def specs (ti : TypeInfo) : List FieldSpec :=
  ti.dataSpecs ++ if ti.isProtected then permSpecs else []

def fieldNames (ti : TypeInfo) : List String := ti.specs.map FieldSpec.name

/-- The declared fields, which are the ones a merge may copy. -/
def dataFieldNames (ti : TypeInfo) : List String := ti.dataSpecs.map FieldSpec.name

/-- Whether some field may hold an entity reference. -/
def hasEntityRefs (ti : TypeInfo) : Bool := ti.specs.any FieldSpec.entityRef

/-- The fields with equality postings. -/
def eqIndexFields (ti : TypeInfo) : List String :=
  (ti.specs.filter fun s => s.indexed || s.sorted).map FieldSpec.name

/-- Every field the index touches. -/
def maintainedFields (ti : TypeInfo) : List String :=
  (ti.specs.filter fun s => s.indexed || s.sorted || s.unique).map FieldSpec.name

def uniqueFields (ti : TypeInfo) : List String :=
  (ti.specs.filter FieldSpec.unique).map FieldSpec.name

def listFields (ti : TypeInfo) : List String :=
  (ti.specs.filter FieldSpec.multivalued).map FieldSpec.name

def sortedFields (ti : TypeInfo) : List String :=
  (ti.specs.filter FieldSpec.sorted).map FieldSpec.name

end TypeInfo

namespace Val

/-- A value that refers to nothing, in a tree with references of any type. -/
def ofPlain {ρ : Type} : Val Empty → Val ρ
  | .none => .none
  | .scalar s => .scalar s
  | .leaf r => nomatch r
  | .seq k xs => .seq k (plainItems xs)
  | .dict xs => .dict (plainEntries xs)
where
  plainItems : List (Val Empty) → List (Val ρ)
    | [] => []
    | x :: xs => ofPlain x :: plainItems xs
  plainEntries : List (Scalar × Val Empty) → List (Scalar × Val ρ)
    | [] => []
    | (k, x) :: xs => (k, ofPlain x) :: plainEntries xs

end Val

/-- The labels a fresh instance of a protected class carries. -/
def birthDefault : Labels := ⟨0, [], viewer, viewer⟩

namespace TypeInfo

/-- The default of a field: of a label column or a declared field. -/
def default? {ρ : Type} (ti : TypeInfo) (name : String) : Option (Val ρ) :=
  if ti.isProtected && permFields.contains name then birthDefault.column name
  else (ti.defaults.find? fun d => d.1 = name).map fun d => d.2.ofPlain

/-- The value of a field that a persisted shape lacks: the legacy label of a
    protected class, else the declared default, else nothing. -/
def fill {ρ : Type} (ti : TypeInfo) (name : String) : Option (Val ρ) :=
  if ti.isProtected && permFields.contains name then
    legacyFill.column name
  else
    (ti.defaults.find? fun d => d.1 = name).map fun d => d.2.ofPlain

theorem permSpecs_names : permSpecs.map FieldSpec.name = permFields := rfl

theorem permFields_nodup : permFields.Nodup := by decide

/-- The field names of a class are distinct. -/
theorem fieldNames_nodup (ti : TypeInfo) : ti.fieldNames.Nodup := by
  rw [fieldNames, specs, List.map_append, List.nodup_append]
  refine ⟨ti.names_nodup, ?_, ?_⟩
  · by_cases hp : ti.isProtected = true
    · rw [if_pos hp, permSpecs_names]
      exact permFields_nodup
    · rw [if_neg hp]
      exact List.nodup_nil
  · intro a ha b hb hab
    rcases List.mem_map.mp ha with ⟨s, hs, rfl⟩
    by_cases hp : ti.isProtected = true
    · rw [if_pos hp, permSpecs_names, ← hab] at hb
      exact ti.not_reserved s hs hb
    · rw [if_neg hp, List.map_nil] at hb
      exact absurd hb List.not_mem_nil

/-- Two specs of one class with the same name are the same spec. -/
theorem spec_unique (ti : TypeInfo) {s t : FieldSpec} (hs : s ∈ ti.specs) (ht : t ∈ ti.specs)
    (h : s.name = t.name) : s = t :=
  List.inj_on_of_nodup_map ti.fieldNames_nodup hs ht h

theorem mem_eqIndexFields (ti : TypeInfo) (f : String) :
    f ∈ ti.eqIndexFields ↔ ∃ s ∈ ti.specs, (s.indexed || s.sorted) = true ∧ s.name = f := by
  simp only [eqIndexFields, List.mem_map, List.mem_filter, and_assoc]

theorem mem_uniqueFields (ti : TypeInfo) (f : String) :
    f ∈ ti.uniqueFields ↔ ∃ s ∈ ti.specs, s.unique = true ∧ s.name = f := by
  simp only [uniqueFields, List.mem_map, List.mem_filter, and_assoc]

theorem mem_listFields (ti : TypeInfo) (f : String) :
    f ∈ ti.listFields ↔ ∃ s ∈ ti.specs, s.multivalued = true ∧ s.name = f := by
  simp only [listFields, List.mem_map, List.mem_filter, and_assoc]

theorem mem_sortedFields (ti : TypeInfo) (f : String) :
    f ∈ ti.sortedFields ↔ ∃ s ∈ ti.specs, s.sorted = true ∧ s.name = f := by
  simp only [sortedFields, List.mem_map, List.mem_filter, and_assoc]

/-- The maintained fields are the equality-indexed and the unique ones. -/
theorem mem_maintainedFields (ti : TypeInfo) (f : String) :
    f ∈ ti.maintainedFields ↔ f ∈ ti.eqIndexFields ∨ f ∈ ti.uniqueFields := by
  rw [mem_eqIndexFields, mem_uniqueFields]
  simp only [maintainedFields, List.mem_map, List.mem_filter, and_assoc, Bool.or_eq_true]
  constructor
  · rintro ⟨s, hs, hm, hf⟩
    rcases hm with hm | hm
    · exact Or.inl ⟨s, hs, hm, hf⟩
    · exact Or.inr ⟨s, hs, hm, hf⟩
  · rintro (⟨s, hs, hm, hf⟩ | ⟨s, hs, hm, hf⟩)
    · exact ⟨s, hs, Or.inl hm, hf⟩
    · exact ⟨s, hs, Or.inr hm, hf⟩

/-- A sorted field has equality postings. -/
theorem eqIndexFields_of_sorted (ti : TypeInfo) {f : String} (h : f ∈ ti.sortedFields) :
    f ∈ ti.eqIndexFields := by
  rcases (mem_sortedFields ti f).mp h with ⟨s, hs, hsorted, hf⟩
  exact (mem_eqIndexFields ti f).mpr ⟨s, hs, by simp [hsorted], hf⟩

/-- An inverted field has equality postings. -/
theorem eqIndexFields_of_list (ti : TypeInfo) {f : String} (h : f ∈ ti.listFields) :
    f ∈ ti.eqIndexFields := by
  rcases (mem_listFields ti f).mp h with ⟨s, hs, hlist, hf⟩
  exact (mem_eqIndexFields ti f).mpr ⟨s, hs, by simp [s.multivalued_indexed hlist], hf⟩

/-- A unique field is a scalar. -/
theorem not_list_of_unique (ti : TypeInfo) {f : String} (h : f ∈ ti.uniqueFields) :
    f ∉ ti.listFields := by
  intro hlist
  rcases (mem_uniqueFields ti f).mp h with ⟨s, hs, hunique, hf⟩
  rcases (mem_listFields ti f).mp hlist with ⟨t, ht, hmulti, hg⟩
  have hst : s = t := ti.spec_unique hs ht (hf.trans hg.symm)
  rw [← hst, s.unique_scalar hunique] at hmulti
  simp at hmulti

/-- A sorted field is a scalar. -/
theorem not_list_of_sorted (ti : TypeInfo) {f : String} (h : f ∈ ti.sortedFields) :
    f ∉ ti.listFields := by
  intro hlist
  rcases (mem_sortedFields ti f).mp h with ⟨s, hs, hsorted, hf⟩
  rcases (mem_listFields ti f).mp hlist with ⟨t, ht, hmulti, hg⟩
  have hst : s = t := ti.spec_unique hs ht (hf.trans hg.symm)
  rw [← hst, s.sorted_scalar hsorted] at hmulti
  simp at hmulti

end TypeInfo

end DataCrystal
