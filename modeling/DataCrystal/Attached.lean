import DataCrystal.Invariance
import DataCrystal.Loads

/-!
# Attached Instances

The buffers of a store hold instances, not OIDs. Whether the instance that is
buffered under an OID is the registered one is not checked anywhere: the hook that
buffers a clean entity takes whatever instance the write came through. So it is an
invariant only as long as the writes come through registered instances, and this
module says which writes those are.

An operation writes to the instances it is given, and `upsert` and `set_root` to
the ones they find. `Op.Through` asks of each that it is registered if the write
would buffer it. A deletion is another matter: it drops what is buffered under the
OID of its instance, and for an instance in state new it does so without asking
whether that is the instance itself. Loads, walks and commits need no condition.

## Main definitions

* `Current`: The instance is the registered one.
* `Attached`: The buffers hold registered instances and new ones.
* `Removable`: A deletion through the instance drops no other one.
* `Op.Through`: What an operation buffers is registered.

## Theorems

* `quiet_attached`, `grow_attached`, `Attached.loaded`: The steps.
* `op_attached`: An operation that only buffers.
* `commit_attached`: A commit, wherever it stops.
-/

namespace DataCrystal

namespace Store

variable {types : Types} {p : Principal} {s t : Store}

/-- The registered instance of its OID. Another instance of that OID may still be
    held somewhere, from before a discard or a failed load. -/
def Current (s : Store) (o : Nat) : Prop :=
  ∀ k, (s.heap.get o).oid = some k → s.registry.get? k = some o

/-- A deletion through the instance takes the buffered entry of its OID only if
    that is the instance itself. An instance in state new that is not buffered, as a
    contribution leaves it, must find nothing under its OID. -/
def Removable (s : Store) (o : Nat) : Prop :=
  s.Current o ∨ (∃ k, s.new.get? k = some o) ∨
    ((s.heap.get o).state = .new ∧ ∀ k, (s.heap.get o).oid = some k →
      s.new.get? k = none ∧ s.dirty.get? k = none ∧ s.cancelledNew.get? k = none)

/-- What is buffered under an OID is its registered instance, or a new one. This is
    what an operation may rely on when it is handed an instance the registry knows
    nothing of: whatever it writes there, no buffer has it. -/
structure Attached (s : Store) : Prop where
  bounded : ∀ o k, (s.heap.get o).oid = some k → o < s.heap.size
  fresh : ∀ o, (s.heap.get o).oid = none → (s.heap.get o).state = .new
  registered : ∀ k o, s.registry.get? k = some o → (s.heap.get o).oid = some k
  isNew : ∀ k o, s.new.get? k = some o →
    (s.heap.get o).oid = some k ∧ (s.heap.get o).state = .new
  isDirty : ∀ k o, s.dirty.get? k = some o → s.registry.get? k = some o
  isDeleted : ∀ k c o, s.deleted.get? k = some (c, some o) → s.registry.get? k = some o
  upserted : ∀ k o, s.pendingUpserts.get? k = some o → o < s.heap.size

theorem Attached.of_registry (h : Attached s) {k o : Nat} (hk : s.registry.get? k = some o) :
    s.Current o := by
  intro k' hk'
  rw [h.registered k o hk] at hk'
  cases hk'
  exact hk

/-- A clean instance has an OID. -/
theorem Attached.oid_of_clean (h : Attached s) {o : Nat} (hstate : (s.heap.get o).state ≠ .new) :
    ∃ k, (s.heap.get o).oid = some k := by
  cases hoid : (s.heap.get o).oid with
  | some k => exact ⟨k, rfl⟩
  | none => exact absurd (h.fresh o hoid) hstate

section Steps

/-- No object has changed its place in the lifecycle, and no buffer has gained. -/
theorem Attached.mono (h : Attached s) (hsize : s.heap.size ≤ t.heap.size)
    (hlife : ∀ o, SameLife (s.heap.get o) (t.heap.get o))
    (hnew : ∀ k o, t.new.get? k = some o → s.new.get? k = some o)
    (hreg : ∀ k o, t.registry.get? k = some o → s.registry.get? k = some o)
    (hdirty : ∀ k o, t.dirty.get? k = some o → t.registry.get? k = some o)
    (hdeleted : ∀ k c o, t.deleted.get? k = some (c, some o) → t.registry.get? k = some o)
    (hupserts : ∀ k o, t.pendingUpserts.get? k = some o → o < t.heap.size) : Attached t where
  bounded o k ho := Nat.lt_of_lt_of_le (h.bounded o k ((hlife o).2.1.symm.trans ho)) hsize
  fresh o ho := (hlife o).2.2.trans (h.fresh o ((hlife o).2.1.symm.trans ho))
  registered k o hk := (hlife o).2.1.trans (h.registered k o (hreg k o hk))
  isNew k o hk := ⟨(hlife o).2.1.trans (h.isNew k o (hnew k o hk)).1,
    (hlife o).2.2.trans (h.isNew k o (hnew k o hk)).2⟩
  isDirty := hdirty
  isDeleted := hdeleted
  upserted := hupserts

/-- Nothing has changed but what an object holds. -/
theorem Attached.congr (h : Attached s) (hsize : s.heap.size ≤ t.heap.size)
    (hlife : ∀ o, SameLife (s.heap.get o) (t.heap.get o)) (hnew : t.new = s.new)
    (hdirty : t.dirty = s.dirty) (hdeleted : t.deleted = s.deleted)
    (hreg : t.registry = s.registry) (hupserts : t.pendingUpserts = s.pendingUpserts) :
    Attached t := by
  refine h.mono hsize hlife ?_ ?_ ?_ ?_ ?_
  · rw [hnew]
    exact fun _ _ hk => hk
  · rw [hreg]
    exact fun _ _ hk => hk
  · rw [hdirty, hreg]
    exact h.isDirty
  · rw [hdeleted, hreg]
    exact h.isDeleted
  · rw [hupserts]
    exact fun k o hk => Nat.lt_of_lt_of_le (h.upserted k o hk) hsize

theorem Attached.modify (h : Attached s) (o : Nat) {f : Entity → Entity}
    (hf : ∀ e, SameLife e (f e)) : Attached (s.modifyEntity o f) :=
  h.congr le_rfl (sameLife_modify hf s o) rfl rfl rfl rfl rfl

/-- A new object is not tracked. -/
theorem Attached.construct (h : Attached s) (c : String) (fields : List (String × Val LiveRef)) :
    Attached (s.construct types c fields) := by
  -- An entity with an id is an older one, which stays as it is.
  have hold : ∀ o k, (s.heap.get o).oid = some k →
      (s.construct types c fields).heap.get o = s.heap.get o := fun o k ho =>
    (Heap.get_push ..).trans (if_neg (Nat.ne_of_lt (h.bounded o k ho)))
  -- The fresh one has none.
  have hget : ∀ o, ((s.construct types c fields).heap.get o).oid = (s.heap.get o).oid ∨
      ((s.construct types c fields).heap.get o).oid = none ∧
        ((s.construct types c fields).heap.get o).state = .new := by
    intro o
    by_cases ho : o = s.heap.size
    · right
      subst ho
      constructor
      · exact congrArg Entity.oid ((Heap.get_push ..).trans (if_pos rfl))
      · exact congrArg Entity.state ((Heap.get_push ..).trans (if_pos rfl))
    · exact Or.inl (congrArg Entity.oid ((Heap.get_push ..).trans (if_neg ho)))
  constructor
  · intro o k ho
    rcases hget o with hsame | ⟨hnone, -⟩
    · exact Nat.lt_succ_of_lt (h.bounded o k (hsame.symm.trans ho))
    · rw [hnone] at ho
      cases ho
  · intro o ho
    by_cases hsize : o = s.heap.size
    · subst hsize
      exact congrArg Entity.state ((Heap.get_push ..).trans (if_pos rfl))
    · have hsame : (s.construct types c fields).heap.get o = s.heap.get o :=
        (Heap.get_push ..).trans (if_neg hsize)
      rw [hsame] at ho ⊢
      exact h.fresh o ho
  · intro k o hk
    rw [hold o k (h.registered k o hk)]
    exact h.registered k o hk
  · intro k o hk
    rw [hold o k (h.isNew k o hk).1]
    exact h.isNew k o hk
  · exact h.isDirty
  · exact h.isDeleted
  · exact fun k o hk => Nat.lt_succ_of_lt (h.upserted k o hk)

/-- An object leaves the lifecycle, or is taken back to an earlier place in it. -/
theorem Attached.moved (h : Attached s) (o : Nat) (st : EntityState)
    (hnew : ∀ k, s.new.get? k ≠ some o) (hst : ∃ k, (s.heap.get o).oid = some k) :
    Attached (s.setState o st) := by
  have hoid : ∀ n, ((s.setState o st).heap.get n).oid = (s.heap.get n).oid := by
    intro n
    unfold setState
    rw [get_modifyEntity]
    by_cases hn : n = o
    · rw [if_pos hn, hn]
    · rw [if_neg hn]
  have hstate : ∀ n, n ≠ o → ((s.setState o st).heap.get n).state = (s.heap.get n).state :=
    fun n hn => congrArg Entity.state (get_modifyEntity_ne s _ hn)
  -- The ids stay, and only this entity changes its state.
  constructor
  · intro n k hn
    exact h.bounded n k ((hoid n).symm.trans hn)
  · intro n hn
    rw [hoid n] at hn
    have hne : n ≠ o := by
      rintro rfl
      rcases hst with ⟨k, hk⟩
      rw [hn] at hk
      cases hk
    rw [hstate n hne]
    exact h.fresh n hn
  · intro k n hk
    rw [hoid n]
    exact h.registered k n hk
  · intro k n hk
    have hne : n ≠ o := by
      rintro rfl
      exact hnew k hk
    rw [hoid n, hstate n hne]
    exact h.isNew k n hk
  · exact h.isDirty
  · exact h.isDeleted
  · exact h.upserted

/-- What is not new is not buffered as new. -/
theorem Attached.not_new (h : Attached s) {o : Nat} (hstate : (s.heap.get o).state ≠ .new) :
    ∀ k, s.new.get? k ≠ some o := fun k hk => hstate (h.isNew k o hk).2

/-- The first write through a registered instance. -/
theorem Attached.firstWrite (h : Attached s) {o : Nat} (hstate : (s.heap.get o).state = .clean)
    (hcur : s.Current o) : Attached (s.onFirstWrite o) := by
  have hnew : (s.heap.get o).state ≠ .new := by
    rw [hstate]
    decide
  rcases h.oid_of_clean hnew with ⟨k, hoid⟩
  have hset := h.moved o .dirty (h.not_new hnew) ⟨k, hoid⟩
  unfold onFirstWrite
  rw [hoid]
  refine { hset with isDirty := fun k' n hk => ?_ }
  by_cases hne : k' = k
  · subst hne
    have ho : o = n := Option.some.inj ((Dict.get?_set_self ..).symm.trans hk)
    rw [← ho]
    exact hcur k' hoid
  · exact h.isDirty k' n ((Dict.get?_set_ne _ _ hne).symm.trans hk)

/-- Buffering the deletion of a registered instance, or of none. -/
theorem Attached.bufferDelete (h : Attached s) (obj : Option Nat) (oid : Nat) (c : String)
    (hobj : ∀ o, obj = some o → s.registry.get? oid = some o ∧ (s.heap.get o).state ≠ .new) :
    Attached (s.bufferDelete obj oid c) := by
  have hdirty : ∀ k n, (s.dirty.erase oid).get? k = some n → s.registry.get? k = some n :=
    fun k n hk => h.isDirty k n (get?_erase_some hk).1
  have hdeleted : ∀ k c' n, (s.deleted.set oid (c, obj)).get? k = some (c', some n) →
      s.registry.get? k = some n := by
    intro k c' n hk
    by_cases hne : k = oid
    · subst hne
      have heq : (c, obj) = (c', some n) :=
        Option.some.inj ((Dict.get?_set_self ..).symm.trans hk)
      exact (hobj n (congrArg Prod.snd heq)).1
    · exact h.isDeleted k c' n ((Dict.get?_set_ne _ _ hne).symm.trans hk)
  cases obj with
  | none => exact { h with isDirty := hdirty, isDeleted := hdeleted }
  | some o =>
      rcases hobj o rfl with ⟨hreg, hstate⟩
      have hset := h.moved o .deleted (h.not_new hstate) ⟨oid, h.registered oid o hreg⟩
      exact { hset with isDirty := hdirty, isDeleted := hdeleted }

theorem calm_attached (hstep : Calm types s t) (h : Attached s) : Attached t := by
  have hsame : ∀ o, SameLife (s.heap.get o) (s.heap.get o) := fun _ => ⟨rfl, rfl, rfl⟩
  cases hstep with
  | ensures hm => exact h.congr le_rfl hsame rfl rfl rfl rfl rfl
  | reverse => exact h.congr le_rfl hsame rfl rfl rfl rfl rfl
  | construct c fields => exact h.construct c fields
  | edit o f hf hguard => exact h.modify o fun e => ⟨hf.cls e, hf.oid e, hf.state e⟩
  | handle o f oid target => exact h.modify o fun e => ⟨rfl, rfl, rfl⟩
  | upserts d hd =>
      exact h.mono le_rfl hsame (fun _ _ hk => hk) (fun _ _ hk => hk) h.isDirty h.isDeleted
        fun k o hk => (hd k o hk).elim (h.upserted k o) id
  | forget oid hfree =>
      unfold holds at hfree
      simp only [Bool.or_eq_false_iff] at hfree
      have hkept : ∀ k o, k ≠ oid → s.registry.get? k = some o →
          (s.registry.erase oid).get? k = some o := fun k o hne hk =>
        (Dict.get?_erase_ne _ hne).trans hk
      refine h.mono le_rfl hsame (fun _ _ hk => hk) (fun k o hk => (get?_erase_some hk).1)
        (fun k o hk => hkept k o ?_ (h.isDirty k o hk))
        (fun k c o hk => hkept k o ?_ (h.isDeleted k c o hk)) h.upserted
      · rintro rfl
        have hno := hfree.1.1.2
        rw [Dict.contains, hk] at hno
        cases hno
      · rintro rfl
        have hno := hfree.1.2
        rw [Dict.contains, hk] at hno
        cases hno

theorem quiet_attached (hstep : Quiet types s t) (h : Attached s) : Attached t := by
  have hsame : ∀ o, SameLife (s.heap.get o) (s.heap.get o) := fun _ => ⟨rfl, rfl, rfl⟩
  cases hstep with
  | calm hcalm => exact calm_attached hcalm h
  | cancel o oid hstate hoid hroot =>
      have hname : (s.heap.get o).oid = some oid := hoid.elim id fun hreg => h.registered oid o hreg
      -- Once its entry is gone the object is not buffered as new.
      have hgone : Attached { s with new := s.new.erase oid, dirty := s.dirty.erase oid } :=
        h.mono le_rfl hsame (fun k n hk => (get?_erase_some hk).1) (fun _ _ hk => hk)
          (fun k n hk => h.isDirty k n (get?_erase_some hk).1) h.isDeleted h.upserted
      have hnot : ∀ k, (s.new.erase oid).get? k ≠ some o := by
        intro k hk
        rcases get?_erase_some hk with ⟨hk, hne⟩
        rw [(h.isNew k o hk).1] at hname
        exact hne (Option.some.inj hname)
      have hset := hgone.moved o .deleted hnot ⟨oid, hname⟩
      exact { hset with }
  | deleteHolder oid c f key ci hci hheld hstate hroot =>
      exact h.bufferDelete _ oid c fun o ho => ⟨ho, hstate o ho⟩

/-- Discovery buffers new entities. -/
theorem grow_attached (hstep : Grow types p s t) (h : Attached s) : Attached t := by
  cases hstep with
  | adopt o hsize hoid huid =>
      have hget : ∀ n, n ≠ o → (s.adopt o).heap.get n = s.heap.get n :=
        fun n hn => (get_adopt s o n).trans (if_neg hn)
      have hself : (s.adopt o).heap.get o = { s.heap.get o with oid := some s.alloc.nextOid } :=
        (get_adopt s o o).trans (if_pos rfl)
      -- Whoever has an OID is not the entity adopted here.
      have hne : ∀ n k, (s.heap.get n).oid = some k → n ≠ o := by
        rintro n k hn rfl
        rw [hoid] at hn
        cases hn
      -- Only the adopted entity has a new name, and it is buffered under it.
      constructor
      · intro n k hn
        by_cases hno : n = o
        · rw [hno]
          exact hsize
        · rw [hget n hno] at hn
          exact h.bounded n k hn
      · intro n hn
        by_cases hno : n = o
        · rw [hno, hself] at hn
          cases hn
        · rw [hget n hno] at hn ⊢
          exact h.fresh n hn
      · intro k n hk
        have hreg := h.registered k n hk
        rw [hget n (hne n k hreg)]
        exact hreg
      · intro k n hk
        by_cases hkn : k = s.alloc.nextOid
        · subst hkn
          have hno : o = n := Option.some.inj ((get?_new_adopt s o).symm.trans hk)
          rw [← hno, hself]
          exact ⟨rfl, h.fresh o hoid⟩
        · have hold := h.isNew k n ((Dict.get?_set_ne _ _ hkn).symm.trans hk)
          rw [hget n (hne n k hold.1)]
          exact hold
      · exact h.isDirty
      · exact h.isDeleted
      · exact h.upserted
  | stamp o oid container hnew hprot =>
      have hlife := sameLife_modify (f := fun e =>
        { e with labels := s.bornLabels p o container, stampedBy := some p.uid })
        (fun _ => ⟨rfl, rfl, rfl⟩) s o
      exact h.congr le_rfl hlife rfl rfl rfl rfl rfl

/-- A load, whether it returns or raises. -/
theorem Attached.loaded (h : Attached s) (hload : Loaded s t) : Attached t := by
  rcases hload.frame with ⟨hp, r, hframe⟩
  have hnew : t.new = s.new := by rw [hframe]
  have hdirty : t.dirty = s.dirty := by rw [hframe]
  have hdeleted : t.deleted = s.deleted := by rw [hframe]
  -- What had an OID keeps its life: a load only makes shells and fills them.
  have hold : ∀ o k, (s.heap.get o).oid = some k → SameLife (s.heap.get o) (t.heap.get o) :=
    fun o k ho => hload.old o (Or.inl (h.bounded o k ho))
  have hsize := hload.size
  constructor
  · intro o k ho
    by_contra hlt
    have hlife := hload.old o (by omega)
    rw [hlife.2.1] at ho
    exact hlt (Nat.lt_of_lt_of_le (h.bounded o k ho) hsize)
  · intro o ho
    by_cases hshell : s.heap.size ≤ o ∧ o < t.heap.size
    · rcases (hload.shells o hshell.1 hshell.2).2 with ⟨k, hk, -⟩
      rw [hk] at ho
      cases ho
    · have hlife := hload.old o (by omega)
      rw [hlife.2.1] at ho
      rw [hlife.2.2]
      exact h.fresh o ho
  · intro k o hk
    rcases hload.fresh k o hk with hs | ⟨-, -, hoid⟩
    · rw [(hold o k (h.registered k o hs)).2.1]
      exact h.registered k o hs
    · exact hoid
  · intro k o hk
    rw [hnew] at hk
    have hlife := hold o k (h.isNew k o hk).1
    rw [hlife.2.1, hlife.2.2]
    exact h.isNew k o hk
  -- The buffers are as they were, and the names they have are still registered.
  · intro k o hk
    rw [hdirty] at hk
    exact hload.kept k o (h.isDirty k o hk)
  · intro k c o hk
    rw [hdeleted] at hk
    exact hload.kept k o (h.isDeleted k c o hk)
  · intro k o hk
    rw [hframe] at hk
    exact Nat.lt_of_lt_of_le (h.upserted k o hk) hsize

/-- Walks, loads and quiet steps keep the buffers attached. -/
theorem attached_hosts (types : Types) (p : Principal) :
    Hosts types p fun s t => Attached s → Attached t where
  quiet _ _ hstep := quiet_attached hstep
  graph o := (moves_registerGraph o []).mono fun _ _ hstep => grow_attached hstep
  load oid s := .single fun h => h.loaded (loadOid_loaded types oid s)

end Steps

section Writes

/-- A write through the instance buffers the registered one, if it buffers any: only
    a clean instance is buffered by a write, so nothing is asked of the others. -/
def Through (s : Store) (o : Nat) : Prop := (s.heap.get o).state = .clean → s.Current o

/-- Attached, and ready for a write through an instance. -/
def Ready (o : Nat) (s : Store) : Prop := Attached s ∧ s.Through o

theorem through_of_ne {o : Nat} (h : (s.heap.get o).state ≠ .clean) : s.Through o :=
  fun hstate => absurd hstate h

theorem touch_ready (o : Nat) : Leads (Ready o) (touch o)
    (fun _ t => Attached t ∧ (t.heap.get o).state ≠ .clean) Attached := by
  unfold touch
  refine leads_get_bind fun s => ?_
  cases hstate : (s.heap.get o).state with
  | deleted =>
      refine leads_throw ?_
      rintro t ⟨rfl, h, -⟩
      exact h
  | clean =>
      refine leads_modify ?_
      rintro t ⟨rfl, h, hthrough⟩
      refine ⟨h.firstWrite hstate (hthrough hstate), ?_⟩
      rw [state_onFirstWrite]
      decide
  | new =>
      refine leads_pure ?_
      rintro t ⟨rfl, h, -⟩
      refine ⟨h, ?_⟩
      rw [hstate]
      decide
  | dirty =>
      refine leads_pure ?_
      rintro t ⟨rfl, h, -⟩
      refine ⟨h, ?_⟩
      rw [hstate]
      decide

/-- What is written to is not clean from there on. -/
theorem touch_edit_ready (o : Nat) (f : Entity → Entity) (hf : ∀ e, SameLife e (f e)) :
    Leads (Ready o) (touch o >>= fun _ => modify (modifyEntity o f)) (fun _ => Ready o)
      Attached := by
  refine leads_bind (touch_ready o) fun _ => leads_modify fun t h => ⟨h.1.modify o hf, ?_⟩
  refine through_of_ne ?_
  rw [get_modifyEntity_self, (hf _).2.2]
  exact h.2

theorem setField_ready (o : Nat) (f : String) (v : Val LiveRef) :
    Leads (Ready o) (setField types o f v) (fun _ => Ready o) Attached := by
  unfold setField
  refine leads_get_bind fun s => ?_
  by_cases hfrozen : (s.info types o).frozen = true
  · rw [if_pos hfrozen]
    exact leads_at (leads_throw fun t h => h.1) s
  · rw [if_neg hfrozen]
    have hlife : ∀ e : Entity, SameLife e { e with data := Function.update e.data f v } :=
      fun _ => ⟨rfl, rfl, rfl⟩
    exact leads_at (touch_edit_ready o _ hlife) s

theorem setLabel_ready (o : Nat) (w : LabelWrite) :
    Leads (Ready o) (setLabel types o w) (fun _ => Ready o) Attached := by
  unfold setLabel
  refine leads_get_bind fun s => ?_
  by_cases hprot : (!s.isProtected types o) = true
  · rw [if_pos hprot]
    exact leads_at (leads_throw fun t h => h.1) s
  · rw [if_neg hprot]
    by_cases hfrozen : (s.info types o).frozen = true
    · rw [if_pos hfrozen]
      exact leads_at (leads_throw fun t h => h.1) s
    · rw [if_neg hfrozen]
      have hlife : ∀ e : Entity, SameLife e { e with labels := w.run e.labels } :=
        fun _ => ⟨rfl, rfl, rfl⟩
      exact leads_at (touch_edit_ready o _ hlife) s

theorem setPermissions_ready (o : Nat) (l : Labels) :
    Leads (Ready o) (setPermissions types o l) (fun _ => Ready o) Attached :=
  leads_bind (setLabel_ready o _) fun _ => leads_bind (setLabel_ready o _) fun _ =>
    leads_bind (setLabel_ready o _) fun _ => setLabel_ready o _

theorem storeGraph_keeps (o : Nat) : Keeps Attached (storeGraph types p o) :=
  (attached_hosts types p).storeGraph o

theorem markDirty_leads (o : Nat) :
    Leads (Ready o) (markDirty types p o) (fun _ => Attached) Attached := by
  have hstore : Leads (Ready o) (storeGraph types p o) (fun _ => Attached) Attached :=
    leads_mono (storeGraph_keeps o).leads (fun t h => h.1) fun _ _ h => h
  unfold markDirty
  refine leads_get_bind fun s => leads_raiseIf_bind ?_ ?_
  · rintro t ⟨rfl, h⟩
    exact h.1
  cases hstate : (s.heap.get o).state with
  | deleted => exact leads_at (leads_throw fun t h => h.1) s
  | clean =>
      cases (s.heap.get o).oid with
      | none => exact leads_at hstore s
      | some oid =>
          refine leads_modify ?_
          rintro t ⟨rfl, h, hthrough⟩
          exact h.firstWrite hstate (hthrough hstate)
  | new =>
      cases (s.heap.get o).oid with
      | none => exact leads_at hstore s
      | some oid => exact leads_at (leads_pure fun t h => h.1) s
  | dirty =>
      cases (s.heap.get o).oid with
      | none => exact leads_at hstore s
      | some oid => exact leads_at (leads_pure fun t h => h.1) s

/-- What is not new can only be removed as the registered instance. -/
theorem Removable.current {o : Nat} (hrem : s.Removable o) (h : Attached s)
    (hstate : (s.heap.get o).state ≠ .new) : s.Current o := by
  rcases hrem with hcur | ⟨k, hk⟩ | ⟨hnew, -⟩
  · exact hcur
  · exact absurd (h.isNew k o hk).2 hstate
  · exact absurd hnew hstate

theorem deleteInstance_leads (o : Nat) :
    Leads (fun s => Attached s ∧ ((s.heap.get o).state ≠ .deleted → s.Removable o))
      (deleteInstance o) (fun _ => Attached) Attached := by
  unfold deleteInstance
  refine leads_get_bind fun s => leads_raiseIf_bind ?_ ?_
  · rintro t ⟨rfl, h, -⟩
    exact h
  cases hoid : (s.heap.get o).oid with
  | none =>
      refine leads_pure ?_
      rintro t ⟨rfl, h, -⟩
      exact h
  | some oid =>
      dsimp only
      by_cases hdeleted : (s.heap.get o).state = .deleted
      -- An instance deleted before is left as it is.
      · rw [if_pos hdeleted]
        refine leads_pure ?_
        rintro t ⟨rfl, h, -⟩
        exact h
      · rw [if_neg hdeleted]
        unfold deleteOid
        refine leads_get_bind fun s' => leads_of ?_ fun hs : s' = s => ?_
        · rintro t ⟨rfl, rfl, -⟩
          rfl
        · subst hs
          by_cases hroot : s'.rootOid = some oid
          · rw [if_pos hroot]
            exact leads_throw fun t h => by
              rcases h with ⟨rfl, -, h, -⟩
              exact h
          · rw [if_neg hroot]
            by_cases hnew : (s'.heap.get o).state = .new
            -- A new one is taken back; any other is buffered as deleted, under the name it has.
            · simp only [Option.filter_some, hnew, decide_true, if_true]
              refine leads_bind (Q := fun _ => Attached) (leads_modify ?_) fun _ =>
                leads_pure fun t h => h
              rintro t ⟨rfl, -, h, -⟩
              have hstep : Quiet (fun _ => none) t (t.cancelInsert o oid) :=
                .cancel o oid hnew (Or.inl hoid) hroot
              exact quiet_attached hstep h
            · simp only [Option.filter_some, hnew, decide_false, Bool.false_eq_true, if_false]
              refine leads_bind (Q := fun _ => Attached) (leads_modify ?_) fun _ =>
                leads_pure fun t h => h
              rintro t ⟨rfl, -, h, hrem⟩
              refine h.bufferDelete _ oid _ fun n hn => ?_
              cases hn
              exact ⟨(hrem hdeleted).current h hnew oid hoid, hnew⟩

/-- Only the indexes differ. -/
def OnlyIndex (s t : Store) : Prop := ∃ m, t = { s with index := m }

theorem onlyIndex_ensureIndex (c : String) : Moves OnlyIndex (ensureIndex types c) :=
  moves_get_bind fun s => movesAt_zoom (moves_ensure (b := s.backend) c s.index) rfl
    fun _ m _ => ⟨m, rfl⟩

theorem onlyIndex_holderOf (c f : String) (v : Val LiveRef) :
    Moves OnlyIndex (holderOf types c f v) :=
  moves_bind moves_get fun _ => moves_ite (moves_pure _)
    (moves_bind (onlyIndex_ensureIndex c) fun _ => moves_bind (moves_ofExcept _) fun _ =>
      moves_pure _)

/-- Attached, and every entity an upsert may find again is ready for a write. The
    memory of the upserts holds entities by their keys, and outlives a commit that
    fails. -/
def ReadyUpserts (s : Store) : Prop :=
  Attached s ∧ ∀ k o, s.pendingUpserts.get? k = some o → s.Through o

theorem readyUpserts_onlyIndex (h : OnlyIndex s t) (hs : ReadyUpserts s) : ReadyUpserts t := by
  rcases h with ⟨m, rfl⟩
  exact ⟨hs.1.congr le_rfl (fun _ => ⟨rfl, rfl, rfl⟩) rfl rfl rfl rfl rfl, hs.2⟩

theorem readyUpserts_loaded (h : Loaded s t) (hs : ReadyUpserts s) : ReadyUpserts t := by
  refine ⟨hs.1.loaded h, fun k o hk hstate => ?_⟩
  rcases h.frame with ⟨hp, r, hframe⟩
  rw [hframe] at hk
  have hlife := h.old o (Or.inl (hs.1.upserted k o hk))
  intro k' hk'
  rw [hlife.2.1] at hk'
  rw [hlife.2.2] at hstate
  exact h.kept k' o (hs.2 k o hk hstate k' hk')

/-- What a load returns is ready for a write. -/
theorem loadOid_ready (oid : Nat) : Leads ReadyUpserts (loadOid types oid)
    (fun o t => ReadyUpserts t ∧ t.Current o) ReadyUpserts := by
  intro s hs
  have hload := readyUpserts_loaded (loadOid_loaded types oid s) hs
  cases hrun : loadOid types oid s with
  | ok o t =>
      rw [hrun] at hload
      exact ⟨hload, hload.1.of_registry (loadOid_registered hrun)⟩
  | error e t =>
      rw [hrun] at hload
      exact hload

theorem committedSurvivor_leads (c f : String) (v : Val LiveRef) :
    Leads ReadyUpserts (committedSurvivor types p c f v)
      (fun r t => ReadyUpserts t ∧ ∀ e, r = some e → t.Current e) ReadyUpserts := by
  have hholder : Keeps ReadyUpserts (holderOf types c f v) :=
    (onlyIndex_holderOf c f v).mono fun _ _ => readyUpserts_onlyIndex
  have hensure : Keeps ReadyUpserts (ensureIndex types c) :=
    (onlyIndex_ensureIndex c).mono fun _ _ => readyUpserts_onlyIndex
  have hraise : ∀ (b : Bool) (e : Err), Keeps ReadyUpserts (raiseIf b e : M Unit) :=
    fun b e => moves_raiseIf b e
  unfold committedSurvivor
  refine leads_bind hholder.leads fun holder => leads_get_bind fun s => ?_
  cases holder.filter fun oid => !s.deleted.contains oid with
  | none => exact leads_at (leads_pure fun t h => ⟨h, fun e he => nomatch he⟩) s
  | some oid =>
      refine leads_at (leads_bind hensure.leads fun ci => leads_bind (hraise _ _).leads fun _ =>
        leads_bind (loadOid_ready oid) fun o => leads_pure fun t h => ⟨h.1, fun e he => ?_⟩) s
      cases he
      exact h.2

theorem pendingSurvivor_leads (c f : String) (v : Val LiveRef) :
    Leads ReadyUpserts (pendingSurvivor c f v)
      (fun r t => ReadyUpserts t ∧ ∀ e, r = some e → t.Through e) ReadyUpserts := by
  unfold pendingSurvivor
  refine leads_bind (Q := fun _ => ReadyUpserts) (leads_ofExcept (fun _ _ _ h => h) fun _ h => h)
    fun key => leads_get_bind fun s => ?_
  cases hfound : key.bind fun k => (s.pendingUpserts.get? (c, f, k)).map fun o => (k, o) with
  | none => exact leads_at (leads_pure fun t h => ⟨h, fun e he => nomatch he⟩) s
  | some found =>
      rcases found with ⟨k, o⟩
      dsimp only
      split
      · refine leads_pure ?_
        rintro t ⟨rfl, h⟩
        refine ⟨h, fun e he => ?_⟩
        cases he
        rcases Option.bind_eq_some_iff.mp hfound with ⟨k', -, hk'⟩
        rcases Option.map_eq_some_iff.mp hk' with ⟨o', ho', heq⟩
        cases heq
        exact h.2 _ _ ho'
      · refine leads_bind (Q := fun _ => ReadyUpserts) (leads_modify ?_) fun _ =>
          leads_pure fun t h => ⟨h, fun e he => nomatch he⟩
        rintro t ⟨rfl, h⟩
        have hkept : ∀ k' n, (t.pendingUpserts.erase (c, f, k)).get? k' = some n →
            t.pendingUpserts.get? k' = some n := by
          intro k' n hk'
          rw [Dict.get?_erase] at hk'
          by_cases hkey : k' = (c, f, k)
          · rw [if_pos hkey] at hk'
            cases hk'
          · rw [if_neg hkey] at hk'
            exact hk'
        refine ⟨?_, fun k' n hk' => h.2 k' n (hkept k' n hk')⟩
        exact { h.1 with upserted := fun k' n hk' => h.1.upserted k' n (hkept k' n hk') }

theorem findByKey_leads (c f : String) (v : Val LiveRef) :
    Leads ReadyUpserts (findByKey types p c f v)
      (fun r t => Attached t ∧ ∀ e, r = some e → t.Through e) Attached := by
  refine leads_bind (leads_raised (committedSurvivor_leads c f v) fun t h => h.1) fun r => ?_
  cases r with
  | some o => exact leads_pure fun t h => ⟨h.1.1, fun e he => fun _ => h.2 e he⟩
  | none =>
      refine leads_mono (leads_raised (pendingSurvivor_leads c f v) fun t h => h.1)
        (fun t h => h.1) fun r t h => ⟨h.1.1, h.2⟩

theorem mergeDataFields_leads (existing incoming : Nat) :
    Leads (Ready existing) (mergeDataFields types existing incoming) (fun _ => Attached)
      Attached := by
  unfold mergeDataFields
  refine leads_get_any fun s => ?_
  refine leads_mono (leads_forM (J := fun _ => Ready existing) (fun name rest => ?_) _)
    (fun t h => h) fun _ t h => h.1
  unfold mergeField
  refine leads_get_any fun s => ?_
  dsimp only
  split
  · exact leads_pure fun t h => h
  · exact setField_ready existing name _

/-- An upsert writes to the entity it finds. -/
theorem upsert_leads (o : Nat) (f : String) :
    Leads ReadyUpserts (upsert types p o f) (fun _ => Attached) Attached := by
  have hraise : ∀ (b : Bool) (e : Err), Leads ReadyUpserts (raiseIf b e : M Unit)
      (fun _ => ReadyUpserts) Attached := fun b e =>
    leads_raised (Keeps.leads (moves_raiseIf b e)) fun t h => h.1
  unfold upsert
  refine leads_get_any fun s => ?_
  refine leads_bind (hraise _ _) fun _ => leads_bind (hraise _ _) fun _ =>
    leads_bind (hraise _ _) fun _ => leads_bind (findByKey_leads _ _ _) fun existing => ?_
  cases existing with
  -- No survivor: the graph of the object is stored, and the key remembered.
  | none =>
      refine leads_bind (Q := fun _ t => Attached t ∧ o < t.heap.size) ?_ fun _ =>
        leads_modify fun t h => ?_
      · intro t ht
        have hkept := (@storeGraph_keeps types p o).leads t ht.1
        cases hrun : storeGraph types p o t with
        | ok u t' =>
            rw [hrun] at hkept
            exact ⟨hkept, storeGraph_size hrun⟩
        | error e t' =>
            rw [hrun] at hkept
            exact hkept
      · unfold rememberUpsert
        split
        · refine { h.1 with upserted := fun k n hk => ?_ }
          rw [Dict.get?_set] at hk
          split at hk
          · cases hk
            exact h.2
          · exact h.1.upserted k n hk
        · exact h.1
  -- A survivor: it takes over the fields, unless the object is a registered one.
  | some e =>
      refine leads_get_any fun t => ?_
      split
      · exact leads_pure fun t h => h.1
      · split
        · exact leads_throw fun t h => h.1
        · exact leads_mono (mergeDataFields_leads e o) (fun t h => ⟨h.1, h.2 e rfl⟩)
            fun _ _ h => h

theorem pinRoot_attached (h : Attached s) (o : Nat) : Attached (s.pinRoot o) := { h with }

theorem assignRoot_attached (h : Attached s) (o : Nat) : Attached (s.assignRoot o) := { h with }

theorem newRootHolder_keeps (v : Val LiveRef) : Keeps Attached (newRootHolder types p v) := by
  refine moves_get_bind fun s => movesAt_modify_bind (fun h => h.construct rootCls _) ?_
  exact moves_bind (storeGraph_keeps _) (fun _ => moves_modify fun t h => assignRoot_attached h _) _

theorem rootHolderOf_leads (oid : Nat) :
    Leads (fun s => Attached s ∧ ∀ o, s.rootHolder = some o → s.Through o)
      (rootHolderOf types oid) (fun o => Ready o) Attached := by
  unfold rootHolderOf
  refine leads_get_bind fun s => ?_
  cases s.rootHolder with
  | some o =>
      refine leads_pure ?_
      rintro t ⟨rfl, h, hready⟩
      exact ⟨h, hready o rfl⟩
  | none =>
      rintro t ⟨rfl, h, -⟩
      dsimp only
      have hload := h.loaded (loadOid_loaded types oid t)
      cases hrun : loadOid types oid t with
      | ok o u =>
          rw [hrun] at hload
          exact ⟨hload, fun _ => hload.of_registry (loadOid_registered hrun)⟩
      | error e u =>
          rw [hrun] at hload
          exact hload

theorem loadRoot_keeps : Keeps Attached (loadRoot types) := by
  refine moves_bind moves_get fun s => ?_
  cases s.rootOid with
  | none => exact moves_pure _
  | some oid =>
      exact moves_bind (hosts_rootHolderOf (attached_hosts types ⟨0, Dict.empty⟩).toHostsCalm oid) fun o =>
        moves_modify fun t h => pinRoot_attached h o

/-- Assigning the root writes to its holder. -/
theorem setRoot_leads (v : Val LiveRef) :
    Leads (fun s => Attached s ∧ ∀ o, s.rootHolder = some o → s.Through o)
      (setRoot types p v) (fun _ => Attached) Attached := by
  -- The root is made anew, or its holder is read, written and walked.
  unfold setRoot
  refine leads_get_any fun s => ?_
  cases s.rootOid with
  | none => exact leads_mono (newRootHolder_keeps v).leads (fun t h => h.1) fun _ _ h => h
  | some oid =>
      refine leads_bind (Q := fun r t => Attached t ∧ ∀ o, r = .ok o → t.Through o) ?_ fun r => ?_
      · intro t ht
        have hholder := @rootHolderOf_leads types oid t ht
        unfold attempt
        cases hrun : rootHolderOf types oid t with
        | ok o u =>
            rw [hrun] at hholder
            refine ⟨hholder.1, fun n hn => ?_⟩
            cases hn
            exact hholder.2
        | error e u =>
            rw [hrun] at hholder
            exact ⟨hholder, fun n hn => nomatch hn⟩
      · cases r with
        | ok o =>
            refine leads_bind (Q := fun _ => Attached) ?_ fun _ =>
              leads_bind (storeGraph_keeps o).leads fun _ =>
                leads_modify fun t h => pinRoot_attached h o
            exact leads_mono (setField_ready o "value" v) (fun t h => ⟨h.1, h.2 o rfl⟩)
              fun _ t h => h.1
        | error e =>
            cases e with
            -- A root that is lost is noted as deleted first, without an instance.
            | danglingRef k =>
                refine leads_bind (Q := fun _ => Attached) (leads_modify fun t h => ?_) fun _ =>
                  (newRootHolder_keeps v).leads
                refine { h.1 with isDeleted := fun k' c n hk => ?_ }
                change (t.deleted.set oid (rootCls, none)).get? k' = _ at hk
                rw [Dict.get?_set] at hk
                split at hk
                · cases hk
                · exact h.1.isDeleted k' c n hk
            | _ => exact leads_throw fun t h => h.1

end Writes

end Store

open Store

/-- What an operation buffers of the clean entities is registered, and what it
    deletes is registered or its own buffered entry. -/
def Op.Through (s : Store) : Op → Prop
  | .setField o _ _ => s.Through o
  | .setLabel o _ => s.Through o
  | .setPermissions o _ => s.Through o
  | .markDirty o => s.Through o
  -- A second delete does nothing, so nothing is asked of it.
  | .delete o => (s.heap.get o).state ≠ .deleted → s.Removable o
  -- The survivor among the upserts of this batch.
  | .upsert _ _ => ∀ k o, s.pendingUpserts.get? k = some o → s.Through o
  | .setRoot _ => ∀ o, s.rootHolder = some o → s.Through o
  | _ => True

/-- An operation that only buffers, whether it returns or raises. -/
theorem op_attached {types : Types} {p : Principal} {s : Store} (h : Attached s) (op : Op)
    (hedit : op.isEdit = true) (hthrough : op.Through s) :
    Attached (finalState (op.run types p s)) := by
  have hboth : ∀ t : Store, Attached t → Attached t := fun _ ht => ht
  cases op with
  | setField o f v => exact (setField_ready o f v).final (fun _ t ht => ht.1) hboth ⟨h, hthrough⟩
  | setLabel o w => exact (setLabel_ready o w).final (fun _ t ht => ht.1) hboth ⟨h, hthrough⟩
  | setPermissions o l =>
      exact (setPermissions_ready o l).final (fun _ t ht => ht.1) hboth ⟨h, hthrough⟩
  | markDirty o => exact (markDirty_leads o).final (fun _ t ht => ht) hboth ⟨h, hthrough⟩
  | delete o =>
      have hdelete : Leads (fun t => Attached t ∧ ((t.heap.get o).state ≠ .deleted →
          t.Removable o)) (effect (deleteInstance o))
          (fun _ => Attached) Attached :=
        leads_bind (deleteInstance_leads o) fun _ => leads_pure fun t ht => ht
      exact hdelete.final (fun _ t ht => ht) hboth ⟨h, hthrough⟩
  | upsert o f => exact (upsert_leads o f).final (fun _ t ht => ht) hboth ⟨h, hthrough⟩
  | loadRoot => exact loadRoot_keeps.final h
  | setRoot v => exact (setRoot_leads v).final (fun _ t ht => ht) hboth ⟨h, hthrough⟩
  | commit fault => simp [Op.isEdit] at hedit
  | discard => simp [Op.isEdit] at hedit
  | _ =>
      exact reflTransGen_invariant (fun _ _ hstep hs => hstep hs)
        (hosts_quiet_op (attached_hosts types p) _ rfl s) h

end DataCrystal
