import DataCrystal.Index.Manager
import DataCrystal.Index.Represents

/-!
# What the Unique Maps Name

The unique maps of an index name only OIDs that were indexed. This holds of
every index, also of one that a raised exception left half changed, and it needs
no assumption about the values; the deletion by key rests on it.

## Main definitions

* `ClassIndexes.HoldersIn`, `IndexBlob.HoldersIn`: A unique map names only OIDs
  with a property.

## Theorems

* `keeps_insert`, `holdersIn_remove`: Folding in a write or a delete.
* `holdersIn_build`, `holdersIn_load`: An index on first use.
-/

namespace DataCrystal

/-- The unique maps of a blob name only OIDs with a property. -/
def IndexBlob.HoldersIn (P : Nat → Prop) (blob : IndexBlob) : Prop :=
  ∀ f key k, ((blob.unique.get? f).bind fun m => m.get? key) = some k → P k

namespace ClassIndexes

/-- The unique maps of an index name only OIDs with a property. -/
def HoldersIn (P : Nat → Prop) (ci : ClassIndexes) : Prop :=
  ∀ f key k, ci.holder f key = some k → P k

variable {P Q : Nat → Prop} {ci ci' : ClassIndexes} {ρ : Type}

theorem HoldersIn.mono (h : HoldersIn P ci) (hPQ : ∀ k, P k → Q k) : HoldersIn Q ci :=
  fun f key k hk => hPQ k (h f key k hk)

theorem HoldersIn.of_unique (h : HoldersIn P ci) (hu : ci'.unique = ci.unique) :
    HoldersIn P ci' := by
  intro f key k hk
  rw [holder, hu] at hk
  exact h f key k hk

/-- A change of an index, as a program. -/
abbrev change (f : ClassIndexes → ClassIndexes) : EStateM Err ClassIndexes PUnit := modify f

theorem holdersIn_forget (h : HoldersIn P ci) (oid : Nat) :
    HoldersIn P (ci.withLastValues.forget oid) := by
  have hw : HoldersIn P ci.withLastValues := by
    intro f key k hk
    rw [holder_withLastValues] at hk
    exact h f key k hk
  rw [forget]
  split
  · intro f key k hk
    exact hw f key k ((holder_unindex _ oid f _ key k).mp hk).1
  · exact hw

theorem holdersIn_remove (h : HoldersIn P ci) (oid : Nat) : HoldersIn P (ci.remove oid) :=
  (holdersIn_forget h oid).of_unique rfl

section Properties

variable {I : ClassIndexes → Prop}

/-- A property that does not look at the sorted runs, nor at what objects the
    keys are. -/
def Runless (I : ClassIndexes → Prop) : Prop :=
  ∀ ci decs runs, I ci → I { ci with decimals := decs, sortedKeys := runs }

theorem keeps_enterNewKey (hruns : Runless I) (f : String) (decimalAt : Key → Bool)
    (k : Option Key) : Keeps I (enterNewKey f decimalAt k) := by
  refine moves_bind moves_get fun ci => ?_
  split
  · refine moves_bind (keeps_modify fun ci h => hruns ci _ ci.sortedKeys h) fun _ => ?_
    refine moves_get_bind fun ci => ?_
    split
    · refine movesAt_bind (moves_raiseIf _ _ ci) fun _ ci₁ hraise => ?_
      rw [(raiseIf_ok_iff.mp hraise).2]
      refine movesAt_bind (moves_ofExcept _ ci) fun run ci₂ hrun => ?_
      rw [(ofExcept_ok_iff.mp hrun).2]
      exact .single (hruns ci ci.decimals _)
    · exact movesAt_pure _ _
  · exact moves_pure _

/-- Indexing an OID under a field keeps what each posting and each hold keeps. -/
theorem keeps_indexEntry {oid : Nat} (hruns : Runless I)
    (hpost : ∀ ci f k, I ci → I (ci.addPosting oid f k))
    (hhold : ∀ ci f k, I ci → I (ci.holdKey oid f k)) (e : String × Val ρ) :
    Keeps I (indexEntry oid e) := by
  have hholds : ∀ k, Keeps I (change (holdKey oid e.1 k)) :=
    fun k => keeps_modify fun ci h => hhold ci e.1 k h
  have hposts : ∀ k, Keeps I (change (addPosting oid e.1 k)) :=
    fun k => keeps_modify fun ci h => hpost ci e.1 k h
  have hkey : ∀ k, Keeps I (addKey oid e.1 e.2.decimalAt k) := fun k =>
    moves_bind moves_get fun ci => moves_ite
      (moves_bind (keeps_enterNewKey hruns e.1 e.2.decimalAt k) fun _ =>
        moves_bind (hposts k) fun _ => hholds k) (hholds k)
  exact moves_bind (moves_bind moves_get fun ci => moves_bind (moves_ofExcept _) fun keys =>
    moves_bind (moves_forM hkey keys) fun _ => moves_pure _) fun _ => moves_pure _

theorem keeps_finalizeBuild (hruns : Runless I)
    (hdone : ∀ ci, I ci → I { ci with building := false }) : Keeps I finalizeBuild := by
  have hrun : ∀ (f : String) (run : List Key), Keeps I
      (change fun ci => { ci with sortedKeys := ci.sortedKeys.set f run }) :=
    fun f run => keeps_modify fun ci h => hruns ci ci.decimals _ h
  have hleave : Keeps I (change fun ci => { ci with building := false }) := keeps_modify hdone
  exact moves_bind moves_get fun ci =>
    moves_bind (moves_forM (fun f => moves_bind (moves_ofExcept _) (hrun f)) _) fun _ => hleave

end Properties

theorem holdersIn_runless : Runless (HoldersIn P) := fun _ _ _ h => h.of_unique rfl

theorem holdersIn_holdKey (h : HoldersIn P ci) {oid : Nat} (hP : P oid) (f : String)
    (k : Option Key) : HoldersIn P (ci.holdKey oid f k) := by
  cases k with
  | some key =>
      intro g j n hn
      rw [holdKey, holder_setHolder] at hn
      split at hn
      · rw [← Option.some.inj hn]
        exact hP
      · exact h g j n hn
  | none => exact h

/-- Folding in a write names its OID and no other. -/
theorem keeps_insert {oid : Nat} (hP : P oid) (values : List (String × Val ρ)) :
    Keeps (HoldersIn P) (insert oid values) := by
  have hforget : Keeps (HoldersIn P) (change fun ci => ci.withLastValues.forget oid) :=
    keeps_modify fun ci h => holdersIn_forget h oid
  have hextent : Keeps (HoldersIn P)
      (change fun ci => ci.setExtent (Insert.insert oid ci.extent)) :=
    keeps_modify fun ci h => h.of_unique rfl
  have hentry : ∀ e : String × Val ρ, Keeps (HoldersIn P) (indexEntry oid e) :=
    keeps_indexEntry holdersIn_runless (fun ci f k h => h.of_unique rfl)
      fun ci f k h => holdersIn_holdKey h hP f k
  have hmemory : ∀ indexed, Keeps (HoldersIn P) (change (setMemory oid (snapshot indexed))) :=
    fun indexed => keeps_modify fun ci h => h.of_unique rfl
  exact moves_bind hforget fun _ => moves_bind hextent fun _ =>
    moves_bind (moves_mapM hentry values) hmemory

theorem holdersIn_finalizeBuild : Keeps (HoldersIn P) finalizeBuild :=
  keeps_finalizeBuild holdersIn_runless fun _ h => h.of_unique rfl

/-- A build names only OIDs of the records it scans. -/
theorem holdersIn_build {ti : TypeInfo} {lineage : Lineage} {scan : Nat → List StoredRecord}
    (h : buildClassIndexes ti lineage scan = .ok ci)
    (hP : ∀ shape ∈ lineage, ∀ rec ∈ scan shape.1, P rec.oid) : HoldersIn P ci := by
  have hkeeps : Keeps (HoldersIn P) (buildProgram ti lineage scan) := by
    refine moves_bind (moves_forM_mem _ fun shape hshape => ?_) fun _ => holdersIn_finalizeBuild
    have hextent : ∀ rec : StoredRecord, Keeps (HoldersIn P)
        (change fun ci => ci.setExtent (Insert.insert rec.oid ci.extent)) :=
      fun rec => keeps_modify fun ci h => h.of_unique rfl
    refine moves_ite (moves_forM hextent _) ?_
    refine moves_bind (moves_ofExcept _) fun colliding => moves_forM_mem _ fun rec hrec => ?_
    cases colliding with
    | some name => exact moves_throw _
    | none => exact keeps_insert (hP shape hshape rec hrec) _
  have hinit : HoldersIn P (bulkInit ti) := by
    intro f key k hk
    rw [holder, bulkInit, init, Dict.get?_ofList_const] at hk
    split at hk <;> simp at hk
  rw [buildClassIndexes] at h
  cases hrun : buildProgram ti lineage scan (bulkInit ti) with
  | ok u ci' =>
      simp only [hrun, Except.ok.injEq] at h
      rw [← h]
      exact hkeeps.of_ok hrun hinit
  | error e ci' => simp [hrun] at h

/-- An index loaded from a blob names what the blob does. -/
theorem holdersIn_load {blob : IndexBlob} {ti : TypeInfo} (h : load blob ti = .ok (some ci))
    (hP : blob.HoldersIn P) : HoldersIn P ci := by
  rw [load] at h
  split at h
  · cases hrun : finalizeBuild (ofBlob blob) with
    | ok u ci' =>
        simp only [hrun, Except.ok.injEq, Option.some.injEq] at h
        rw [← h]
        exact holdersIn_finalizeBuild.of_ok hrun hP
    | error e ci' => simp [hrun] at h
  · simp at h

end ClassIndexes

end DataCrystal
