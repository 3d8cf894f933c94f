import DataCrystal.Loading

/-!
# What Registered Instances Show

A read of a record that is loaded already is answered with its registered instance,
not from storage. So the registry is memory like the indexes and the watermark are,
and a store goes with its storage only if every registered instance shows the record
of its OID, unless a write to that OID is buffered.

That holds in a store nobody commits, as long as the buffers keep what was written.
A load fills what it registers from the record; a clean instance cannot be changed
before the hook buffers it; promoting a handle changes what it points at and not the
OID it names. What breaks it is a deletion of an instance in state new: it drops the
buffered write of its OID without asking whose write that is.

## Main definitions

* `Names`: A reference of a record and one of a live instance name the same.
* `Shows`: An instance holds what its record holds.
* `Accounted`: A registered instance shows its record, or is buffered.
* `Showing`: All of them are accounted for.
* `Op.KeepsWrites`: A deletion that drops no write of another instance.

## Theorems

* `showing_hosts`: The operations that delete nothing.
* `op_showing`: An operation that only buffers.
-/

namespace DataCrystal

/-- Rewriting references so that they stay related leaves the trees related. -/
theorem Val.Rel.rewrite {ρ τ : Type} {R : ρ → τ → Prop} {g : τ → τ}
    (h : ∀ r t, R r t → R r (g t)) :
    ∀ (v : Val ρ) (w : Val τ), Rel R v w → Rel R v (w.mapLeaves (m := Id) g)
  | .none, .none, _ => trivial
  | .scalar _, .scalar _, hvw => hvw
  | .leaf r, .leaf t, hvw => h r t hvw
  | .seq _ xs, .seq _ ys, hvw => ⟨hvw.1, items xs ys hvw.2⟩
  | .dict xs, .dict ys, hvw => entries xs ys hvw
where
  items : ∀ (xs : List (Val ρ)) (ys : List (Val τ)), Rel.relItems R xs ys →
      Rel.relItems R xs (Val.mapLeaves.mapItems (m := Id) g ys)
    | [], [], _ => trivial
    | x :: xs, y :: ys, hxy => ⟨Val.Rel.rewrite h x y hxy.1, items xs ys hxy.2⟩
  entries : ∀ (xs : List (Scalar × Val ρ)) (ys : List (Scalar × Val τ)),
      Rel.relEntries R xs ys → Rel.relEntries R xs (Val.mapLeaves.mapEntries (m := Id) g ys)
    | [], [], _ => trivial
    | (_, x) :: xs, (_, y) :: ys, hxy =>
      ⟨hxy.1, Val.Rel.rewrite h x y hxy.2.1, entries xs ys hxy.2.2⟩

/-- What a declared field is assigned it holds. -/
theorem field_assign_data (e : Entity) {name : String} (v : Val LiveRef)
    (h : (e.labels.column name : Option (Val LiveRef)) = none) :
    ((default : Entity).assign name v).field name = v := by
  unfold Labels.column at h
  unfold Entity.assign Entity.field Labels.column
  split at h
  · cases h
  · cases h
  · cases h
  · cases h
  · simp_all

namespace Store

variable {types : Types} {p : Principal} {s t : Store} {k n o : Nat}

/-- A reference of a record and one of a live instance name the same: bytes, or the
    OID of an entity, whether it is loaded or not. -/
inductive Names (s : Store) : Token → LiveRef → Prop
  | blob (oid : Nat) (content : List Nat) : Names s (.blob oid content) (.blob oid content)
  | handle (k : Nat) (target : Option Nat) : Names s (.ref k) (.lazy (some k) target)
  | entity (k n : Nat) (h : (s.heap.get n).oid = some k) : Names s (.ref k) (.entity n)

/-- A field holds what its value in the record names. -/
def ShowsField (s : Store) (n : Nat) (e : FieldSpec × Val Token) : Prop :=
  ∃ w, Val.Rel s.Names e.2 w ∧
    (s.heap.get n).field e.1.name = ((default : Entity).assign e.1.name w).field e.1.name

/-- An instance holds, field by field, what the record of an OID holds, as a load
    would fill it: the value of the record, or the fill of a field its shape lacks.
    -/
def Shows (types : Types) (s : Store) (k n : Nat) : Prop :=
  ∃ rec plan, Planned types s k rec (s.heap.get n).cls plan ∧ ∀ e ∈ plan, s.ShowsField n e

/-- A write to an OID, or its deletion, is buffered. -/
def buffers (s : Store) (k : Nat) : Bool := s.dirty.contains k || s.deleted.contains k

/-- The instance of an OID is clean and shows its record, or it is buffered. The
    write hook of a clean one is armed, its containers included. -/
structure Accounted (types : Types) (s : Store) (k n : Nat) : Prop where
  oid : (s.heap.get n).oid = some k
  old : (s.heap.get n).state ≠ .new
  shows : (s.heap.get n).state = .clean → (s.heap.get n).bound = true ∧ s.Shows types k n
  buffered : (s.heap.get n).state ≠ .clean → s.buffers k = true

/-- Every registered instance is accounted for, and none of them is buffered as new.
    So a read that finds an instance in the registry shows what a read of the record
    would, unless a write is under way. -/
structure Showing (types : Types) (s : Store) : Prop where
  bounded : ∀ o k, (s.heap.get o).oid = some k → o < s.heap.size
  registered : ∀ k n, s.registry.get? k = some n → s.Accounted types k n
  isNew : ∀ k o, s.new.get? k = some o →
    (s.heap.get o).oid = some k ∧ ∀ j, s.registry.get? j ≠ some o

/-- Objects keep the OIDs they have. -/
def KeepsOids (s t : Store) : Prop :=
  ∀ n k, (s.heap.get n).oid = some k → (t.heap.get n).oid = some k

theorem Names.keep (h : KeepsOids s t) {r : Token} {v : LiveRef} (hn : s.Names r v) :
    t.Names r v := by
  cases hn with
  | blob oid content => exact .blob oid content
  | handle k target => exact .handle k target
  | entity k n hoid => exact .entity k n (h n k hoid)

theorem ShowsField.keep (h : KeepsOids s t) {e : FieldSpec × Val Token}
    (hsame : (t.heap.get n).field e.1.name = (s.heap.get n).field e.1.name)
    (hs : s.ShowsField n e) : t.ShowsField n e := by
  rcases hs with ⟨w, hrel, hfield⟩
  exact ⟨w, Val.Rel.mono (fun _ _ hr => hr.keep h) e.2 w hrel, hsame.trans hfield⟩

/-- The records and how they are read are the same. -/
theorem Planned.keep (hb : t.backend = s.backend) (htypes : t.typeRows = s.typeRows)
    {rec : StoredRecord} {c : String} {plan : List (FieldSpec × Val Token)}
    (h : Planned types s k rec c plan) : Planned types t k rec c plan := by
  unfold Planned typenameByCid persistedFields at h ⊢
  rw [hb, htypes]
  exact h

theorem Shows.keep (hb : t.backend = s.backend) (htypes : t.typeRows = s.typeRows)
    (hoids : KeepsOids s t) (hsame : t.heap.get n = s.heap.get n) (h : s.Shows types k n) :
    t.Shows types k n := by
  rcases h with ⟨rec, plan, hplan, hfields⟩
  refine ⟨rec, plan, hsame ▸ hplan.keep hb htypes, fun e he => (hfields e he).keep hoids ?_⟩
  rw [hsame]

/-- A step that leaves the instance alone and takes nothing out of the buffers. -/
theorem Accounted.keep (h : s.Accounted types k n) (hb : t.backend = s.backend)
    (htypes : t.typeRows = s.typeRows) (hoids : KeepsOids s t)
    (hsame : t.heap.get n = s.heap.get n)
    (hbuf : s.buffers k = true → t.buffers k = true) : t.Accounted types k n where
  oid := hsame ▸ h.oid
  old := hsame ▸ h.old
  shows hclean := by
    rw [hsame] at hclean ⊢
    exact ⟨(h.shows hclean).1, (h.shows hclean).2.keep hb htypes hoids hsame⟩
  buffered hstate := by
    rw [hsame] at hstate
    exact hbuf (h.buffered hstate)

/-- A step that changes the instance, which is buffered behind it. -/
theorem Accounted.change (h : s.Accounted types k n) (hoids : KeepsOids s t)
    (hstate : (t.heap.get n).state ≠ .clean) (hold : (t.heap.get n).state ≠ .new)
    (hbuf : t.buffers k = true) : t.Accounted types k n where
  oid := hoids n k h.oid
  old := hold
  shows hclean := absurd hclean hstate
  buffered _ := hbuf

theorem keepsOids_modify {f : Entity → Entity} (hf : ∀ e, (f e).oid = e.oid) (s : Store) (o : Nat) :
    KeepsOids s (s.modifyEntity o f) := by
  intro n k hn
  rw [get_modifyEntity]
  by_cases hno : n = o
  · rw [if_pos hno, hf, ← hno]
    exact hn
  · rw [if_neg hno]
    exact hn

/-- The place of an object in the lifecycle, and nothing else of it, is changed. -/
theorem get_setState (s : Store) (o : Nat) (st : EntityState) (n : Nat) :
    (s.setState o st).heap.get n =
      if n = o then { s.heap.get o with state := st } else s.heap.get n :=
  get_modifyEntity s o (fun e => { e with state := st }) n

theorem oid_setState (s : Store) (o : Nat) (st : EntityState) (n : Nat) :
    ((s.setState o st).heap.get n).oid = (s.heap.get n).oid := by
  rw [get_setState]
  by_cases hn : n = o
  · rw [if_pos hn, hn]
  · rw [if_neg hn]

/-- A new object stands where none with an OID stood. -/
theorem Showing.push (h : Showing types s) {e : Entity} (ht : t.heap = s.heap.push e) :
    KeepsOids s t ∧ ∀ n, n < s.heap.size → t.heap.get n = s.heap.get n := by
  have hget : ∀ n, n < s.heap.size → t.heap.get n = s.heap.get n := by
    intro n hn
    rw [ht, Heap.get_push, if_neg (by omega)]
  refine ⟨fun n k hn => ?_, hget⟩
  rw [hget n (h.bounded n k hn)]
  exact hn

section Steps

/-- Neither the objects nor the buffers have changed. -/
theorem Showing.congr (h : Showing types s) (hb : t.backend = s.backend)
    (htypes : t.typeRows = s.typeRows) (hheap : t.heap = s.heap)
    (hreg : ∀ k n, t.registry.get? k = some n → s.registry.get? k = some n)
    (hnew : t.new = s.new) (hbuf : ∀ k, s.buffers k = true → t.buffers k = true) :
    Showing types t := by
  have hoids : KeepsOids s t := by
    intro n k hn
    rw [hheap]
    exact hn
  refine ⟨fun o k ho => ?_, fun k n hk => ?_, fun k o hk => ?_⟩
  · rw [hheap] at ho ⊢
    exact h.bounded o k ho
  · exact (h.registered k n (hreg k n hk)).keep hb htypes hoids (by rw [hheap]) (hbuf k)
  · rw [hnew] at hk
    rw [hheap]
    exact ⟨(h.isNew k o hk).1, fun j hj => (h.isNew k o hk).2 j (hreg j o hj)⟩

/-- A step that changes one object, which is not a registered one in sync, and keeps
    its OID. -/
theorem Showing.modify (h : Showing types s) (o : Nat) {f : Entity → Entity}
    (hf : ∀ e, (f e).oid = e.oid ∧ (f e).state = e.state)
    (ho : ∀ k, s.registry.get? k = some o → (s.heap.get o).state ≠ .clean) :
    Showing types (s.modifyEntity o f) := by
  have hoids := keepsOids_modify (fun e => (hf e).1) s o
  have hback : ∀ n k, ((s.modifyEntity o f).heap.get n).oid = some k →
      (s.heap.get n).oid = some k := by
    intro n k hn
    rw [get_modifyEntity] at hn
    by_cases hno : n = o
    · rw [if_pos hno, (hf _).1] at hn
      rw [hno]
      exact hn
    · rw [if_neg hno] at hn
      exact hn
  refine ⟨fun n k hn => h.bounded n k (hback n k hn), fun k n hk => ?_, fun k n hk => ?_⟩
  · have hn := h.registered k n hk
    by_cases hno : n = o
    · subst hno
      have hstate : ((s.modifyEntity n f).heap.get n).state = (s.heap.get n).state := by
        rw [get_modifyEntity_self, (hf _).2]
      exact hn.change hoids (hstate ▸ ho k hk) (hstate ▸ hn.old) (hn.buffered (ho k hk))
    · exact hn.keep rfl rfl hoids (get_modifyEntity_ne s f hno) id
  · exact ⟨hoids n k (h.isNew k n hk).1, (h.isNew k n hk).2⟩

/-- The handles on an OID in a field of an entity are loaded or demoted. -/
def turned (f : String) (oid : Nat) (target : Option Nat) (e : Entity) : Entity :=
  { e with data := Function.update e.data f ((e.data f).withHandle oid target) }

/-- Loading or demoting handles changes no OID they name. -/
theorem ShowsField.handle {e : FieldSpec × Val Token} (h : s.ShowsField n e) (f : String)
    (oid : Nat) (target : Option Nat) :
    (s.modifyEntity n (turned f oid target)).ShowsField n e := by
  have hoids : KeepsOids s (s.modifyEntity n (turned f oid target)) :=
    keepsOids_modify (f := turned f oid target) (fun _ => rfl) s n
  by_cases hdata : e.1.name = f ∧
      ((s.heap.get n).labels.column e.1.name : Option (Val LiveRef)) = none
  · rcases hdata with ⟨rfl, hcolumn⟩
    rcases h with ⟨w, hrel, hfield⟩
    have hw : (s.heap.get n).data e.1.name = w := by
      rw [field_assign_data _ w hcolumn] at hfield
      rw [← hfield, Entity.field, hcolumn, Option.getD_none]
    refine ⟨w.withHandle oid target, ?_, ?_⟩
    · refine Val.Rel.mono (fun _ _ hr => hr.keep hoids) _ _ (Val.Rel.rewrite ?_ e.2 w hrel)
      intro r v hr
      cases hr with
      | blob oid content => exact .blob oid content
      | handle k t => exact .handle k _
      | entity k n h => exact .entity k n h
    · rw [field_assign_data _ _ hcolumn, get_modifyEntity_self, Entity.field]
      change ((s.heap.get n).labels.column e.1.name).getD
        (Function.update (s.heap.get n).data e.1.name _ e.1.name) = _
      rw [hcolumn, Option.getD_none, Function.update_self, hw]
  · -- another field, or a label column, which holds no handle
    refine h.keep hoids ?_
    rw [get_modifyEntity_self]
    unfold Entity.field turned
    dsimp only
    by_cases hname : e.1.name = f
    · cases hcolumn : ((s.heap.get n).labels.column e.1.name : Option (Val LiveRef)) with
      | none => exact absurd ⟨hname, hcolumn⟩ hdata
      | some v => rfl
    · rw [Function.update_of_ne hname]

theorem handle_showing (h : Showing types s) (o : Nat) (f : String) (oid : Nat)
    (target : Option Nat) : Showing types (s.modifyEntity o (turned f oid target)) := by
  have hoids : KeepsOids s (s.modifyEntity o (turned f oid target)) :=
    keepsOids_modify (f := turned f oid target) (fun _ => rfl) s o
  have hlife := sameLife_modify (f := turned f oid target) (fun _ => ⟨rfl, rfl, rfl⟩) s o
  refine ⟨fun n k hn => h.bounded n k ((hlife n).2.1.symm.trans hn), fun k n hk => ?_,
    fun k n hk => ⟨hoids n k (h.isNew k n hk).1, (h.isNew k n hk).2⟩⟩
  have hn := h.registered k n hk
  by_cases hno : n = o
  · subst hno
    refine ⟨hoids n k hn.oid, (hlife n).2.2 ▸ hn.old, fun hclean => ?_, fun hstate => ?_⟩
    · rcases hn.shows ((hlife n).2.2.symm.trans hclean) with ⟨hbound, rec, plan, hplan, hfields⟩
      refine ⟨?_, rec, plan, ?_, fun e he => (hfields e he).handle f oid target⟩
      · rw [get_modifyEntity_self]
        exact hbound
      · rw [(hlife n).1]
        exact hplan.keep rfl rfl
    · exact hn.buffered ((hlife n).2.2 ▸ hstate)
  · exact hn.keep rfl rfl hoids (get_modifyEntity_ne s _ hno) id

/-- A step that makes an object nothing is registered or buffered for. -/
theorem construct_showing (h : Showing types s) (c : String)
    (fields : List (String × Val LiveRef)) : Showing types (s.construct types c fields) := by
  have hpush := h.push (t := s.construct types c fields) rfl
  refine ⟨fun o k ho => ?_, fun k n hk => ?_, fun k o hk => ?_⟩
  · change o < s.heap.size + 1
    by_cases hlt : o < s.heap.size
    · omega
    · by_contra hle
      have hsame : (s.construct types c fields).heap.get o = s.heap.get o :=
        (Heap.get_push ..).trans (if_neg (by omega))
      rw [hsame] at ho
      exact hlt (h.bounded o k ho)
  · have hn := h.registered k n hk
    exact hn.keep rfl rfl hpush.1 (hpush.2 n (h.bounded n k hn.oid)) id
  · exact ⟨hpush.1 o k (h.isNew k o hk).1, (h.isNew k o hk).2⟩

theorem calm_showing (hstep : Calm types s t) (h : Showing types s) : Showing types t := by
  cases hstep with
  | ensures hm => exact h.congr rfl rfl rfl (fun _ _ hk => hk) rfl fun _ hk => hk
  | reverse => exact h.congr rfl rfl rfl (fun _ _ hk => hk) rfl fun _ hk => hk
  | construct c fields => exact construct_showing h c fields
  | edit o f hf hguard =>
      refine h.modify o (fun e => ⟨hf.oid e, hf.state e⟩) fun k hk => ?_
      rcases hguard with hstate | hbound
      · exact hstate
      · -- the containers of a registered instance in sync are bound
        intro hclean
        rw [((h.registered k o hk).shows hclean).1] at hbound
        cases hbound
  | handle o f oid target => exact handle_showing h o f oid target
  | upserts d hd => exact h.congr rfl rfl rfl (fun _ _ hk => hk) rfl fun _ hk => hk
  | forget oid hfree =>
      exact h.congr rfl rfl rfl (fun k n hk => (get?_erase_some hk).1) rfl fun _ hk => hk

theorem grow_showing (hstep : Grow types p s t) (h : Showing types s) : Showing types t := by
  cases hstep with
  | adopt o hsize hoid huid =>
      have hget : ∀ n, n ≠ o → (s.adopt o).heap.get n = s.heap.get n :=
        fun n hn => (get_adopt s o n).trans (if_neg hn)
      have hne : ∀ n k, (s.heap.get n).oid = some k → n ≠ o := by
        rintro n k hn rfl
        rw [hoid] at hn
        cases hn
      have hoids : KeepsOids s (s.adopt o) := fun n k hn => by
        rw [hget n (hne n k hn)]
        exact hn
      refine ⟨fun n k hn => ?_, fun k n hk => ?_, fun k n hk => ?_⟩
      · by_cases hno : n = o
        · rw [hno]
          exact hsize
        · rw [hget n hno] at hn
          exact h.bounded n k hn
      · have hn := h.registered k n hk
        exact hn.keep rfl rfl hoids (hget n (hne n k hn.oid)) id
      · by_cases hkn : k = s.alloc.nextOid
        · subst hkn
          have hno : o = n := Option.some.inj ((get?_new_adopt s o).symm.trans hk)
          subst hno
          refine ⟨?_, fun j hj => hne o j (h.registered j o hj).oid rfl⟩
          exact congrArg Entity.oid ((get_adopt s o o).trans (if_pos rfl))
        · have hold := h.isNew k n ((Dict.get?_set_ne _ _ hkn).symm.trans hk)
          exact ⟨hoids n k hold.1, hold.2⟩
  | stamp o oid container hnew hprot =>
      have hmod := h.modify o (f := fun e => { e with
        labels := s.bornLabels p o container, stampedBy := some p.uid }) (fun _ => ⟨rfl, rfl⟩)
        fun k hk => absurd hk ((h.isNew oid o hnew).2 k)
      exact hmod.congr rfl rfl rfl (fun _ _ hk => hk) rfl fun _ hk => hk

/-- What a load makes of the references of a record names the same. -/
theorem FieldFilled.shows {e : FieldSpec × Val Token} (h : FieldFilled types t n e)
    (hreg : ∀ k n, t.registry.get? k = some n → (t.heap.get n).oid = some k) :
    t.ShowsField n e := by
  rcases h with ⟨w, hrel, hfield⟩
  refine ⟨w, Val.Rel.mono (fun r v hr => ?_) e.2 w hrel, hfield⟩
  generalize e.1.lazyRefs = lazyRefs at hr
  cases hr with
  | blob _ oid content => exact .blob oid content
  | handle k target htarget => exact .handle k target
  | entity k n hk hopen => exact .entity k n (hreg k n hk)
  | unloaded k hprot => exact .handle k none

/-- A load, whether it returns or raises. What it registers it has filled. -/
theorem load_showing (oid : Nat) (h : Showing types s) :
    Showing types (finalState (loadOid types oid s)) := by
  have hloaded := loadOid_loaded types oid s
  generalize hfinal : finalState (loadOid types oid s) = t at hloaded
  rcases hloaded.frame with ⟨hp, r, hframe⟩
  have hb : t.backend = s.backend := by rw [hframe]
  have htypes : t.typeRows = s.typeRows := by rw [hframe]
  have hnew : t.new = s.new := by rw [hframe]
  have hbuf : ∀ k, s.buffers k = true → t.buffers k = true := fun k hk => by rw [hframe]; exact hk
  have hoids : KeepsOids s t := by
    intro n k hn
    rw [hloaded.same n (h.bounded n k hn)]
    exact hn
  have hold : ∀ k n, s.registry.get? k = some n → t.Accounted types k n := fun k n hk =>
    (h.registered k n hk).keep hb htypes hoids
      (hloaded.same n (h.bounded n k (h.registered k n hk).oid)) (hbuf k)
  refine ⟨fun n k hn => ?_, fun k n hk => ?_, fun k n hk => ?_⟩
  · by_contra hlt
    have hsize := hloaded.size
    have hlife := hloaded.old n (by omega)
    rw [hlife.2.1] at hn
    exact hlt (Nat.lt_of_lt_of_le (h.bounded n k hn) hsize)
  · rcases hloaded.fresh k n hk with hs | ⟨hle, hlt, hoid⟩
    · exact hold k n hs
    · have hclean := (hloaded.shells n hle hlt).1
      have hstays : s.registry.get? k ≠ some n := fun hs =>
        absurd (h.bounded n k (h.registered k n hs).oid) (by omega)
      have hshows : t.Shows types k n := by
        cases hrun : loadOid types oid s with
        | error e t' =>
            -- A load that raises has taken its shells back.
            rw [hrun, finalState_error] at hfinal
            subst hfinal
            rw [loadOid_restores hrun k] at hk
            exact absurd hk hstays
        | ok o t' =>
            rw [hrun, finalState_ok] at hfinal
            subst hfinal
            have hobjects : RegistersObjects s := fun j m hj =>
              h.bounded m j (h.registered j m hj).oid
            rcases (loadOid_fills hobjects hrun).2.2 n hle hlt with
              ⟨j, rec, plan, hj, hplan, hfilled⟩
            rw [hoid] at hj
            cases hj
            refine ⟨rec, plan, hplan.keep hb htypes, fun e he => (hfilled e he).shows ?_⟩
            intro j m hj
            rcases hloaded.fresh j m hj with hs | ⟨-, -, hm⟩
            · exact (hold j m hs).oid
            · exact hm
      refine ⟨hoid, ?_, fun _ => ⟨hloaded.bound n hle hlt, hshows⟩, fun hne => absurd hclean hne⟩
      rw [hclean]
      decide
  · rw [hnew] at hk
    have hn := h.isNew k n hk
    refine ⟨hoids n k hn.1, fun j hj => ?_⟩
    rcases hloaded.fresh j n hj with hs | ⟨hle, -, -⟩
    · exact hn.2 j hs
    · exact absurd (h.bounded n k hn.1) (by omega)

/-- The first write through an instance buffers its OID. -/
theorem firstWrite_showing (h : Showing types s) (o : Nat) : Showing types (s.onFirstWrite o) := by
  have hoids : KeepsOids s (s.setState o .dirty) := fun n k hn => (oid_setState s o _ n).trans hn
  have hget : ∀ n, n ≠ o → (s.setState o .dirty).heap.get n = s.heap.get n :=
    fun n hn => (get_setState s o _ n).trans (if_neg hn)
  have hback : ∀ n, ((s.setState o .dirty).heap.get n).oid = (s.heap.get n).oid :=
    oid_setState s o .dirty
  unfold onFirstWrite
  cases hoid : (s.heap.get o).oid with
  -- Without an id it is in no registry, so nothing registered changes.
  | none =>
      refine ⟨fun n k hn => h.bounded n k ((hback n).symm.trans hn), fun k n hk => ?_,
        fun k n hk => ⟨(hback n).trans (h.isNew k n hk).1, (h.isNew k n hk).2⟩⟩
      have hn := h.registered k n hk
      refine hn.keep rfl rfl hoids (hget n ?_) id
      rintro rfl
      rw [hn.oid] at hoid
      cases hoid
  | some j =>
      -- With an id it is buffered from here on, which excuses it.
      have hbuf : ∀ k, s.buffers k = true ∨ k = j → Store.buffers
          { s.setState o .dirty with dirty := (s.setState o .dirty).dirty.set j o } k = true := by
        intro k hk
        unfold buffers Dict.contains at hk ⊢
        by_cases hkj : k = j
        · rw [hkj, Dict.get?_set_self]
          rfl
        · rw [Dict.get?_set_ne _ _ hkj]
          exact hk.resolve_right hkj
      refine ⟨fun n k hn => h.bounded n k ((hback n).symm.trans hn), fun k n hk => ?_,
        fun k n hk => ⟨(hback n).trans (h.isNew k n hk).1, (h.isNew k n hk).2⟩⟩
      have hn := h.registered k n hk
      by_cases hno : n = o
      · subst hno
        have hstate : ((s.setState n .dirty).heap.get n).state = .dirty := by
          rw [get_setState, if_pos rfl]
        have hkj : k = j := Option.some.inj (hn.oid.symm.trans hoid)
        refine hn.change hoids ?_ ?_ (hbuf k (Or.inr hkj))
        · exact fun hc => by cases hstate.symm.trans hc
        · exact fun hc => by cases hstate.symm.trans hc
      · exact hn.keep rfl rfl hoids (hget n hno) fun hk => hbuf k (Or.inl hk)

/-- The operations that delete nothing. -/
theorem showing_hosts (types : Types) (p : Principal) :
    HostsEdits types p fun s t => Showing types s → Showing types t where
  calm _ _ hstep := calm_showing hstep
  graph o := (moves_registerGraph o []).mono fun _ _ hstep => grow_showing hstep
  load oid _ := .single fun h => load_showing oid h
  firstWrite _ o _ h := firstWrite_showing h o
  assignRoot _ _ _ _ _ _ h := h.congr rfl rfl rfl (fun _ _ hk => hk) rfl fun _ hk => hk
  pinRoot _ _ h := h.congr rfl rfl rfl (fun _ _ hk => hk) rfl fun _ hk => hk
  dropRoot s oid _ _ h := by
    refine h.congr rfl rfl rfl (fun _ _ hk => hk) rfl fun k hk => ?_
    unfold buffers dropRootRecord at *
    rw [Bool.or_eq_true] at hk ⊢
    refine hk.imp id fun hdel => ?_
    unfold Dict.contains at hdel ⊢
    rw [Dict.get?_set]
    split <;> simp_all

/-- A buffered deletion takes the place of a buffered write. -/
theorem buffers_bufferDelete (s : Store) (obj : Option Nat) (oid : Nat) (c : String) (k : Nat) :
    (s.bufferDelete obj oid c).buffers k = (s.buffers k || k = oid) := by
  unfold buffers bufferDelete Dict.contains
  dsimp only
  rw [Dict.get?_erase, Dict.get?_set]
  by_cases hk : k = oid
  · simp [hk]
  · cases obj <;> simp [hk]

theorem bufferDelete_showing (h : Showing types s) (obj : Option Nat) (oid : Nat) (c : String)
    (hobj : ∀ o, obj = some o → (s.heap.get o).oid = some oid) :
    Showing types (s.bufferDelete obj oid c) := by
  have hbuf : ∀ k, s.buffers k = true → (s.bufferDelete obj oid c).buffers k = true := by
    intro k hk
    rw [buffers_bufferDelete, hk]
    rfl
  cases obj with
  | none => exact h.congr rfl rfl rfl (fun _ _ hk => hk) rfl hbuf
  | some o =>
      have hget : ∀ n, n ≠ o → (s.bufferDelete (some o) oid c).heap.get n = s.heap.get n :=
        fun n hn => (get_setState s o .deleted n).trans (if_neg hn)
      have hself : (s.bufferDelete (some o) oid c).heap.get o =
          { s.heap.get o with state := .deleted } :=
        (get_setState s o .deleted o).trans (if_pos rfl)
      have hback : ∀ n, ((s.bufferDelete (some o) oid c).heap.get n).oid = (s.heap.get n).oid :=
        oid_setState s o .deleted
      have hoids : KeepsOids s (s.bufferDelete (some o) oid c) :=
        fun n k hn => (hback n).trans hn
      refine ⟨fun n k hn => h.bounded n k ((hback n).symm.trans hn), fun k n hk => ?_,
        fun k n hk => ?_⟩
      · have hn := h.registered k n hk
        by_cases hno : n = o
        · subst hno
          have hko : k = oid := Option.some.inj (hn.oid.symm.trans (hobj n rfl))
          refine hn.change hoids ?_ ?_ ?_
          · rw [hself]
            exact fun hc => nomatch hc
          · rw [hself]
            exact fun hc => nomatch hc
          · rw [buffers_bufferDelete, hko]
            simp
        · exact hn.keep rfl rfl hoids (hget n hno) (hbuf k)
      · have hn := h.isNew k n hk
        exact ⟨hoids n k hn.1, hn.2⟩

/-- The insert of an entity is taken back, and no write of another instance with
    it. -/
theorem cancelInsert_showing (h : Showing types s) {o oid : Nat}
    (hstate : (s.heap.get o).state = .new)
    (hkeeps : s.dirty.get? oid = none ∨ s.registry.get? oid = none) :
    Showing types (s.cancelInsert o oid) := by
  have hget : ∀ n, n ≠ o → (s.cancelInsert o oid).heap.get n = s.heap.get n :=
    fun n hn => (get_setState s o .deleted n).trans (if_neg hn)
  have hback : ∀ n, ((s.cancelInsert o oid).heap.get n).oid = (s.heap.get n).oid :=
    oid_setState s o .deleted
  have hoids : KeepsOids s (s.cancelInsert o oid) := fun n k hn => (hback n).trans hn
  refine ⟨fun n k hn => h.bounded n k ((hback n).symm.trans hn), fun k n hk => ?_,
    fun k n hk => ?_⟩
  · have hn := h.registered k n hk
    refine hn.keep rfl rfl hoids (hget n fun hno => hn.old (hno ▸ hstate)) fun hk' => ?_
    -- What was buffered under the OID is not the write of a registered instance.
    unfold buffers Dict.contains at hk' ⊢
    change ((s.dirty.erase oid).get? k).isSome || (s.deleted.get? k).isSome
    rw [Dict.get?_erase]
    by_cases hko : k = oid
    · rcases hkeeps with hdirty | hreg
      · rw [hko, hdirty] at hk'
        rw [if_pos hko, hko]
        exact hk'
      · rw [hko] at hk
        cases hreg.symm.trans hk
    · rw [if_neg hko]
      exact hk'
  · rcases get?_erase_some hk with ⟨hk, -⟩
    exact ⟨(hback n).trans (h.isNew k n hk).1, (h.isNew k n hk).2⟩

theorem deleteInstance_showing (h : Showing types s) (o : Nat)
    (hkeeps : ∀ k, (s.heap.get o).oid = some k → (s.heap.get o).state = .new →
      s.dirty.get? k = none ∨ s.registry.get? k = none) :
    Showing types (finalState (deleteInstance o s)) := by
  have hmoves : MovesAt (fun _ t => Showing types t) (deleteInstance o) s := by
    refine movesAt_get_bind (movesAt_raiseIf_bind fun _ => ?_)
    cases hoid : (s.heap.get o).oid with
    | none => exact movesAt_pure _ _
    | some oid =>
        dsimp only
        split
        · exact movesAt_pure _ _
        · refine movesAt_get_bind ?_
          split
          · exact movesAt_throw _ _
          · by_cases hnew : (s.heap.get o).state = .new
            · simp only [Option.filter_some, hnew, decide_true, if_true]
              exact movesAt_modify_bind
                (cancelInsert_showing h hnew (hkeeps oid hoid hnew))
                (movesAt_pure _ _)
            · simp only [Option.filter_some, hnew, decide_false, Bool.false_eq_true, if_false]
              exact movesAt_modify_bind
                (bufferDelete_showing h _ _ _ fun n hn => Option.some.inj hn ▸ hoid)
                (movesAt_pure _ _)
  rcases hmoves.cases_tail with hsame | ⟨_, -, hlast⟩
  · rw [hsame]
    exact h
  · exact hlast

/-- A deletion by key finds the registered instance, if there is one. -/
theorem deleteByKey_showing (c f : String) (v : Val LiveRef) :
    Keeps (Showing types) (deleteByKey types c f v) := by
  intro s
  refine movesAt_bind (moves_raiseIf _ _ s) fun _ s₁ _ => ?_
  refine movesAt_bind ((moves_holderOf c f v).mono (fun _ _ hstep => calm_showing hstep) s₁)
    fun holder s₂ _ => movesAt_get_bind ?_
  cases holder with
  | none => exact movesAt_pure _ _
  | some oid =>
      dsimp only
      split
      · exact movesAt_pure _ _
      · refine movesAt_get_bind ?_
        split
        · exact movesAt_throw _ _
        · cases hlive : (s₂.registry.get? oid).filter fun o => (s₂.heap.get o).state = .new with
          | some o =>
              rw [Option.filter_eq_some_iff, decide_eq_true_eq] at hlive
              exact movesAt_modify_bind
                (fun h => absurd hlive.2 (h.registered oid o hlive.1).old) (movesAt_pure _ _)
          | none =>
              exact movesAt_modify_bind
                (fun h => bufferDelete_showing h _ _ _ fun o ho => (h.registered oid o ho).oid)
                (movesAt_pure _ _)

/-- Behind a reread nothing is registered and nothing is buffered. -/
theorem refresh_showing (hbounded : ∀ o k, (s.heap.get o).oid = some k → o < s.heap.size) :
    Showing types s.refresh :=
  ⟨hbounded, (fun _ _ hk => nomatch hk), fun _ _ hk => nomatch hk⟩

theorem discard_showing (h : Showing types s) : Showing types s.discard := by
  have hfold : ∀ (es : List (Nat × Nat)) (s : Store),
      (∀ o k, (s.heap.get o).oid = some k → o < s.heap.size) →
      ∀ o k, ((es.foldl (fun s e => s.detach e) s).heap.get o).oid = some k →
        o < (es.foldl (fun s e => s.detach e) s).heap.size := by
    intro es
    induction es with
    | nil => exact fun _ hs => hs
    | cons e es ih =>
        intro s hs
        refine ih (s.detach e) fun o k ho => ?_
        rcases detach_life e s o with ⟨hsize, hsame | ⟨hnone, -⟩⟩
        · rw [hsize]
          exact hs o k (hsame.2.1.symm.trans ho)
        · rw [hnone] at ho
          cases ho
  exact refresh_showing (hfold _ s h.bounded)

theorem boot_showing (types : Types) (b : Backend) : Showing types (Store.boot none none b) :=
  ⟨(fun _ _ ho => nomatch ho), (fun _ _ hk => nomatch hk), fun _ _ hk => nomatch hk⟩

end Steps

end Store

open Store

/-- A deletion of an instance in state new drops no write of the registered instance
    of its OID. The insert of an entity has an OID of its own, so only an instance
    whose insert is no longer buffered can be in the way of another one. -/
def Op.KeepsWrites (s : Store) : Op → Prop
  | .delete o => ∀ k, (s.heap.get o).oid = some k → (s.heap.get o).state = .new →
      s.dirty.get? k = none ∨ s.registry.get? k = none
  | _ => True

/-- An operation that only buffers, whether it returns or raises. -/
theorem op_showing {types : Types} {p : Principal} {s : Store} (h : Showing types s) (op : Op)
    (hedit : op.isEdit = true) (hkeeps : op.KeepsWrites s) :
    Showing types (finalState (op.run types p s)) := by
  cases hop : op.deletes with
  | false =>
      exact reflTransGen_invariant (I := Showing types) (fun _ _ hstep ht => hstep ht)
        (hosts_edit_op (showing_hosts types p) op hedit hop s) h
  | true =>
      cases op with
      | delete o =>
          change Showing types (finalState (effect (deleteInstance o) s))
          rw [finalState_effect]
          exact deleteInstance_showing h o hkeeps
      | deleteByKey c f v =>
          change Showing types (finalState (effect (deleteByKey types c f v) s))
          rw [finalState_effect]
          exact (deleteByKey_showing c f v).final h
      | _ => cases hop

end DataCrystal
