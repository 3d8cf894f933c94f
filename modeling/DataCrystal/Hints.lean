import DataCrystal.Walked

/-!
# Type Hints

The annotation of a field says whether the field may hold an entity. A class none
of whose fields may is never looked into by the walk that registers a graph, so
the answer has to be right for every form an annotation can take: it may say yes
too often, and never no.

Whether a value is of an annotated type is said here no more strictly than is
needed: an item of a container is of one of the types the container is made of.
The items of a tuple are checked as little, whichever position they are in. What
holds of such values holds of those the language would accept.

## Main definitions

* `Hint`: An annotation, as the engine takes it apart.
* `mayHoldEntity`: The test of the fast path.
* `Hint.Conforms`: A value is of an annotated type.
* `DeclaredAs`: The fields of the classes carry the answers of the test.

## Theorems

* `targets_of_conforms`: A value leads to nothing if its hint rules entities out.
* `fieldTargets_of_conforms`: Nor does an entity that the fast path skips.
-/

namespace DataCrystal

/-- The types whose values refer to nothing. -/
inductive RefFree
  | str
  | int
  | float
  | bool
  | bytes
  | datetime
  | date
  | time
  | decimal
  | noneType
  deriving DecidableEq

/-- The generic containers an annotation is taken apart at. -/
inductive HintOrigin
  | list
  | tuple
  | set
  | frozenset
  | dict
  deriving DecidableEq

/-- The annotation of a field. -/
inductive Hint
  | leaf (type : RefFree)
  | annotated (hint : Hint)
  | container (origin : HintOrigin) (args : List Hint)
  | union (args : List Hint)
  | ellipsis
  /-- An entity class, a lazy handle, `Any`, and whatever else there is. -/
  | other (name : String)

namespace Hint

/-- Whether a value of the type may hold an entity. A container without arguments
    has unknown items. -/
def mayHoldEntity : Hint → Bool
  | .leaf _ => false
  | .annotated hint => hint.mayHoldEntity
  | .container _ args => bare args || anyItem args
  | .union args => anyOf args
  | .ellipsis => true
  | .other _ => true
where
  bare : List Hint → Bool
    | [] => true
    | .ellipsis :: args => bare args
    | _ :: _ => false
  anyItem : List Hint → Bool
    | [] => false
    | .ellipsis :: args => anyItem args
    | hint :: args => hint.mayHoldEntity || anyItem args
  anyOf : List Hint → Bool
    | [] => false
    | hint :: args => hint.mayHoldEntity || anyOf args

end Hint

/-- A value is of a type that refers to nothing; raw bytes may be out of line. -/
def RefFree.Holds : RefFree → Val LiveRef → Prop
  | .bytes, .leaf (.blob _ _) => True
  | .bytes, .leaf (.source _ _) => True
  | .noneType, .none => True
  | _, .scalar _ => True
  | _, _ => False

/-- A value is a container of a kind. A value tree holds no sets. -/
def HintOrigin.Holds : HintOrigin → Val LiveRef → Prop
  | .list, .seq .list _ => True
  | .tuple, .seq .tuple _ => True
  | .dict, .dict _ => True
  | _, _ => False

/-- The items of a container one level down. -/
def Val.items : Val LiveRef → List (Val LiveRef)
  | .seq _ xs => xs
  | .dict es => es.map Prod.snd
  | _ => []

namespace Hint

/-- A value is of an annotated type. -/
def Conforms : Hint → Val LiveRef → Prop
  | .leaf type, v => type.Holds v
  | .annotated hint, v => hint.Conforms v
  | .container origin args, v =>
    origin.Holds v ∧ (mayHoldEntity.bare args = true ∨ ∀ x ∈ v.items, conformsToOne args x)
  | .union args, v => conformsToOne args v
  | .ellipsis, _ => False
  | .other _, _ => True
where
  conformsToOne : List Hint → Val LiveRef → Prop
    | [], _ => False
    | hint :: args, v => hint.Conforms v ∨ conformsToOne args v

theorem conformsToOne_iff (args : List Hint) (v : Val LiveRef) :
    Conforms.conformsToOne args v ↔ ∃ hint ∈ args, hint.Conforms v := by
  induction args with
  | nil => simp [Conforms.conformsToOne]
  | cons hint args ih => simp [Conforms.conformsToOne, ih]

theorem anyOf_eq_false (args : List Hint) :
    mayHoldEntity.anyOf args = false ↔ ∀ hint ∈ args, hint.mayHoldEntity = false := by
  induction args with
  | nil => simp [mayHoldEntity.anyOf]
  | cons hint args ih => simp [mayHoldEntity.anyOf, ih]

/-- No value is of the type of an ellipsis, so it needs no answer. -/
theorem anyItem_eq_false {args : List Hint} (h : mayHoldEntity.anyItem args = false) :
    ∀ hint ∈ args, hint = .ellipsis ∨ hint.mayHoldEntity = false := by
  induction args with
  | nil => simp
  | cons hint args ih =>
      intro hint' hmem
      by_cases he : hint = .ellipsis
      · subst he
        rw [mayHoldEntity.anyItem] at h
        rcases List.mem_cons.mp hmem with rfl | hmem
        · exact Or.inl rfl
        · exact ih h hint' hmem
      · rw [mayHoldEntity.anyItem, Bool.or_eq_false_iff] at h
        · rcases List.mem_cons.mp hmem with rfl | hmem
          · exact Or.inr h.1
          · exact ih h.2 hint' hmem
        · exact fun hc => he hc

end Hint

/-- The entities a container leads to are those its items lead to. -/
theorem targets_eq_nil_of_items {v : Val LiveRef} {origin : HintOrigin} (hv : origin.Holds v)
    (h : ∀ x ∈ v.items, x.targets = []) : v.targets = [] := by
  have hitems : ∀ xs : List (Val LiveRef), (∀ x ∈ xs, x.targets = []) →
      (Val.leaves.itemLeaves xs).filterMap LiveRef.target? = [] := by
    intro xs
    induction xs with
    | nil => exact fun _ => rfl
    | cons x xs ih =>
        intro hxs
        rw [Val.leaves.itemLeaves, List.filterMap_append, ih fun y hy => hxs y (by simp [hy])]
        exact (List.append_nil _).trans (hxs x (by simp))
  have hentries : ∀ es : List (Scalar × Val LiveRef), (∀ e ∈ es, e.2.targets = []) →
      (Val.leaves.entryLeaves es).filterMap LiveRef.target? = [] := by
    intro es
    induction es with
    | nil => exact fun _ => rfl
    | cons e es ih =>
        intro hes
        rw [Val.leaves.entryLeaves, List.filterMap_append, ih fun y hy => hes y (by simp [hy])]
        exact (List.append_nil _).trans (hes e (by simp))
  cases v with
  | seq k xs => exact hitems xs h
  | dict es => exact hentries es fun e he => h e.2 (List.mem_map_of_mem he)
  | none => rfl
  | scalar s => rfl
  | leaf r => cases origin <;> exact hv.elim

theorem targets_of_holds {type : RefFree} {v : Val LiveRef} (h : type.Holds v) :
    v.targets = [] := by
  unfold RefFree.Holds at h
  split at h
  · rfl
  · rfl
  · rfl
  · rfl
  · exact h.elim

/-- A value of a type that rules entities out leads to nothing. -/
theorem targets_of_conforms : ∀ (hint : Hint) (v : Val LiveRef), hint.mayHoldEntity = false →
    hint.Conforms v → v.targets = []
  | .leaf type, v, _, hv => targets_of_holds hv
  | .annotated hint, v, hmay, hv => targets_of_conforms hint v hmay hv
  | .container origin args, v, hmay, hv => by
      rw [Hint.mayHoldEntity, Bool.or_eq_false_iff] at hmay
      rw [Hint.Conforms] at hv
      rcases hv with ⟨horigin, hbare | hitems⟩
      · exact absurd (hbare.symm.trans hmay.1) (by simp)
      · refine targets_eq_nil_of_items horigin fun x hx => ?_
        rcases (Hint.conformsToOne_iff args x).mp (hitems x hx) with ⟨hint, hmem, hconf⟩
        rcases Hint.anyItem_eq_false hmay.2 hint hmem with rfl | hno
        · exact hconf.elim
        · have hsize := List.sizeOf_lt_of_mem hmem
          exact targets_of_conforms hint x hno hconf
  | .union args, v, hmay, hv => by
      rcases (Hint.conformsToOne_iff args v).mp hv with ⟨hint, hmem, hconf⟩
      have hno := (Hint.anyOf_eq_false args).mp hmay hint hmem
      have hsize := List.sizeOf_lt_of_mem hmem
      exact targets_of_conforms hint v hno hconf
  | .ellipsis, v, _, hv => hv.elim
  | .other name, v, hmay, _ => absurd hmay (by simp [Hint.mayHoldEntity])
termination_by hint => sizeOf hint

/-- The annotations of the fields of the classes. -/
abbrev Hints := String → String → Hint

/-- Every field says what the test says of its annotation. -/
def DeclaredAs (hints : Hints) (types : Types) : Prop := ∀ c, ∀ spec ∈ (types.info c).specs,
  spec.entityRef = (hints c spec.name).mayHoldEntity

namespace Store

/-- The values of an object's fields are of the types they are annotated with. -/
def FieldsConform (hints : Hints) (types : Types) (s : Store) (o : Nat) : Prop :=
  ∀ spec ∈ (s.info types o).specs,
    (hints (s.heap.get o).cls spec.name).Conforms ((s.heap.get o).field spec.name)

/-- An entity of a class that the fast path skips leads to nothing. -/
theorem fieldTargets_of_conforms {hints : Hints} {types : Types} {s : Store} {o : Nat}
    (hdecl : DeclaredAs hints types) (h : FieldsConform hints types s o)
    (hskip : (s.info types o).hasEntityRefs = false) : s.fieldTargets types o = [] := by
  unfold fieldTargets
  rw [List.flatMap_eq_nil_iff]
  intro spec hspec
  have hflag : spec.entityRef = false := by
    unfold TypeInfo.hasEntityRefs at hskip
    rw [List.any_eq_false] at hskip
    simpa using hskip spec hspec
  have hmay := (hdecl (s.heap.get o).cls spec hspec).symm.trans hflag
  rw [targets_of_conforms _ _ hmay (h spec hspec), List.map_nil]

end Store

end DataCrystal
