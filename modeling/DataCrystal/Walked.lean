import DataCrystal.Lib.Walk
import DataCrystal.Birth

/-!
# What a Walk Meets

The walk that registers an object graph changes the store it walks through: it
hands out OIDs, and an entity it registers is buffered from then on. All the same
the order in which it meets the objects, and which one it is refused for, can be
read off the store it starts in. An object that has no OID there is met as new
and gone on from once; one that has an OID is walked through if the OID is
buffered. No state in between matters, so what a walk does is said here once, by
the nodes `WalkGraph.walk` meets in the first store, and the operations that
register a graph are about those.

One thing does change on the way. A deleted object may carry an OID that was
taken back, and so is handed out again, to an entity the walk registers. From
then on the object counts as buffered. So what an object leads to depends on how
many entities the walk has registered by then.

Marks are OIDs, or the objects themselves while they have none. Two objects of
one OID share a mark, and the walk goes on from the one it meets first.

## Main definitions

* `walkGraph`: The objects of a store as a walk goes through them.
* `turnedAway`, `refused`: What a walk raises at an object it meets.
* `registersFirst`: Whether a walk registers an entity before it is refused.
* `Walking`: The store on the way, next to the one the walk started in.

## Theorems

* `registerOne_walks`: One entry.
* `registerLoop_walks`: The walk raises at the first object that is refused.
* `registerGraph_walks`, `discover_walks`: A whole walk, and the walks of a commit.
-/

namespace DataCrystal

theorem itemLeaves_ints (xs : List ℤ) :
    Val.leaves.itemLeaves (xs.map (Val.int : ℤ → Val LiveRef)) = [] := by
  induction xs with
  | nil => rfl
  | cons x xs ih =>
      rw [List.map_cons, Val.leaves.itemLeaves, ih]
      rfl

/-- The label columns refer to nothing. -/
theorem targets_field (e : Entity) (name : String) :
    (e.field name).targets = if name ∈ permFields then [] else (e.data name).targets := by
  unfold Entity.field Labels.column
  split
  · rfl
  · simp [permFields, Val.targets, Val.ints, Val.leaves, itemLeaves_ints]
  · rfl
  · rfl
  · rename_i h₁ h₂ h₃ h₄
    rw [if_neg (by simp [permFields]; exact ⟨h₁, h₂, h₃, h₄⟩)]
    rfl

namespace Store

variable {types : Types} {p : Principal} {kind : Nat → String} {s t : Store}

/-- How a walk remembers an object: by its OID, or by itself while it has none. -/
def walkMark (s : Store) (o : Nat) : Nat ⊕ Nat :=
  match (s.heap.get o).oid with
  | some k => .inl k
  | none => .inr o

/-- An object that has no OID or a buffered one; the walk queues such objects. -/
def isOpen (s : Store) (o : Nat) : Bool :=
  match (s.heap.get o).oid with
  | none => true
  | some k => s.isBuffered k

/-- The number of entities a walk has registered by its marks. -/
def adoptions (marks : List (Nat ⊕ Nat)) : Nat := (marks.filter Sum.isRight).length

theorem adoptions_inr (marks : List (Nat ⊕ Nat)) (o : Nat) :
    adoptions (.inr o :: marks) = adoptions marks + 1 := rfl

/-- Whether a walk that has set some marks goes through an object: it has no OID
    at the start, or its OID is buffered by then. -/
def unsettled (s : Store) (marks : List (Nat ⊕ Nat)) (o : Nat) : Bool :=
  match (s.heap.get o).oid with
  | none => true
  | some k => s.isBuffered k || (s.alloc.nextOid ≤ k && k < s.alloc.nextOid + adoptions marks)

/-- The objects to walk next after `o`. -/
def leadsTo (types : Types) (s : Store) (marks : List (Nat ⊕ Nat)) (o : Nat) : List Nat :=
  if o < s.heap.size && s.unsettled marks o && (s.info types o).hasEntityRefs then
    ((s.fieldTargets types o).map Prod.snd).filter (s.unsettled marks)
  else []

/-- The objects of a store as a walk goes through them. -/
def walkGraph (types : Types) (s : Store) : WalkGraph Nat (Nat ⊕ Nat) :=
  ⟨s.walkMark, s.leadsTo types⟩

/-- What a walk raises as soon as it meets an object. -/
def turnedAway (types : Types) (p : Principal) (s : Store) (o : Nat) : Option Err :=
  match s.requireStorable o with
  | .error e => some e
  | .ok _ =>
    if (s.heap.get o).oid.isNone && s.isProtected types o && p.uid = 0 then
      some (.writeDenied .anonymousCreate)
    else none

/-- Whether a field that decodes eagerly holds a protected entity. -/
def holdsEager (types : Types) (s : Store) (o : Nat) : Bool :=
  (s.info types o).hasEntityRefs && (s.fieldTargets types o).any fun e =>
    e.1 && s.isProtected types e.2 && !(s.heap.get e.2).redacted

/-- What a walk raises at an object it meets; the fields are looked at only where
    it goes on. -/
def refused (types : Types) (p : Principal) (s : Store) (m : Nat × Bool) : Option Err :=
  (s.turnedAway types p m.1).or
    (if m.2 && s.unsettled [] m.1 && s.holdsEager types m.1 then some .protectedInEagerField
    else none)

/-- Whether the walk registers an entity before it is refused. -/
def registersFirst (types : Types) (p : Principal) (s : Store) : List (Nat × Bool) → Bool
  | [] => false
  | m :: ms =>
    (s.turnedAway types p m.1).isNone && ((m.2 && (s.heap.get m.1).oid.isNone) ||
      ((s.refused types p m).isNone && registersFirst types p s ms))

/-- The store `t` a walk has come to from `s` after some marks, which stand for
    the OIDs in `walked`. -/
structure Walking (types : Types) (p : Principal) (s t : Store) (marks : List (Nat ⊕ Nat))
    (walked : List Nat) : Prop where
  count : t.alloc.nextOid = s.alloc.nextOid + adoptions marks
  size : t.heap.size = s.heap.size
  same : ∀ o, (t.heap.get o).cls = (s.heap.get o).cls ∧ (t.heap.get o).data = (s.heap.get o).data ∧
    (t.heap.get o).state = (s.heap.get o).state ∧ (t.heap.get o).redacted = (s.heap.get o).redacted
  old : ∀ o k, (s.heap.get o).oid = some k → (t.heap.get o).oid = some k
  notYet : ∀ o, (s.heap.get o).oid = none → .inr o ∉ marks → (t.heap.get o).oid = none
  adopted : ∀ o, (s.heap.get o).oid = none → .inr o ∈ marks →
    ∃ k ∈ walked, (t.heap.get o).oid = some k ∧ t.new.get? k = some o
  newOld : ∀ k < s.alloc.nextOid, t.new.get? k = s.new.get? k
  newFresh : ∀ k, s.alloc.nextOid ≤ k → ((t.new.get? k).isSome ↔ k < t.alloc.nextOid)
  dirty : t.dirty = s.dirty
  walkedOld : ∀ k < s.alloc.nextOid, k ∈ walked ↔ .inl k ∈ marks
  walkedBelow : ∀ k ∈ walked, k < t.alloc.nextOid
  allowed : ∀ o, .inr o ∈ marks → s.isProtected types o = true → p.uid ≠ 0

/-- What is buffered was handed out. -/
theorem Coherent.below_of_new (h : Coherent kind s) {k o : Nat} (hk : s.new.get? k = some o) :
    k < s.alloc.nextOid :=
  (h.objects.newOf o k (h.objects.isNew k o hk).2.1 (h.objects.isNew k o hk).1).2

theorem Coherent.below_of_dirty (h : Coherent kind s) {k o : Nat} (hk : s.dirty.get? k = some o) :
    k < s.alloc.nextOid := by
  rcases h.objects.isDirty k o hk with ⟨hoid, hst⟩
  exact Nat.lt_of_lt_of_le (h.objects.settled o k (Or.inr hst) hoid).1 h.storage.allocOid

/-- A walk that has not started. -/
theorem walking_start (h : Coherent kind s) : Walking types p s s [] [] := by
  refine ⟨rfl, rfl, fun _ => ⟨rfl, rfl, rfl, rfl⟩, fun _ _ hk => hk, fun _ hk _ => hk,
    fun _ _ hm => absurd hm List.not_mem_nil, fun _ _ => rfl, fun k hk => ?_, rfl,
    fun k _ => by simp, fun k hk => absurd hk List.not_mem_nil,
    fun _ hm => absurd hm List.not_mem_nil⟩
  constructor
  · intro hsome
    rcases Option.isSome_iff_exists.mp hsome with ⟨o, ho⟩
    exact h.below_of_new ho
  · intro hlt
    omega

section Walking

variable {marks : List (Nat ⊕ Nat)} {walked : List Nat} (h : Walking types p s t marks walked)
include h

theorem Walking.info (o : Nat) : t.info types o = s.info types o := by
  unfold Store.info
  rw [(h.same o).1]

theorem Walking.isProtected (o : Nat) : t.isProtected types o = s.isProtected types o := by
  unfold Store.isProtected
  rw [h.info]

theorem Walking.requireStorable (o : Nat) : t.requireStorable o = s.requireStorable o := by
  unfold Store.requireStorable
  rw [h.size, (h.same o).2.2.1, (h.same o).2.2.2]

theorem Walking.fieldTargets (o : Nat) : t.fieldTargets types o = s.fieldTargets types o := by
  unfold Store.fieldTargets
  rw [h.info]
  refine List.flatMap_congr fun spec _ => ?_
  rw [targets_field, targets_field, (h.same o).2.1]

theorem Walking.isBuffered (hc : Coherent kind s) (k : Nat) : t.isBuffered k =
    (s.isBuffered k || (s.alloc.nextOid ≤ k && k < s.alloc.nextOid + adoptions marks)) := by
  unfold Store.isBuffered Dict.contains
  rw [h.dirty]
  by_cases hk : s.alloc.nextOid ≤ k
  · -- nothing from there on was buffered at the start
    have hnew : s.new.get? k = none := by
      cases hget : s.new.get? k with
      | none => rfl
      | some o =>
          have := hc.below_of_new hget
          omega
    have hdirty : s.dirty.get? k = none := by
      cases hget : s.dirty.get? k with
      | none => rfl
      | some o =>
          have := hc.below_of_dirty hget
          omega
    rw [hnew, hdirty, Bool.eq_iff_iff]
    simp only [Option.isSome_none, Bool.or_false, Bool.false_or, Bool.and_eq_true,
      decide_eq_true_eq, hk, true_and]
    rw [h.newFresh k hk, h.count]
  · rw [h.newOld k (by omega)]
    simp [hk]

/-- Which objects a walk queues can be told from the store it started in. -/
theorem Walking.isOpen (hc : Coherent kind s) (o : Nat) : t.isOpen o = s.unsettled marks o := by
  unfold Store.isOpen unsettled
  cases hoid : (s.heap.get o).oid with
  | some k =>
      rw [h.old o k hoid]
      exact h.isBuffered hc k
  | none =>
      by_cases hm : .inr o ∈ marks
      · rcases h.adopted o hoid hm with ⟨k, -, hk, hnew⟩
        rw [hk]
        simp [Store.isBuffered, Dict.contains, hnew]
      · rw [h.notYet o hoid hm]

end Walking

/-- Queueing the objects of some fields raises at a protected one in an eager
    field, and keeps those that are open. -/
theorem mapM_queueEntity (types : Types) (s : Store) (container : Option Nat)
    (ts : List (Bool × Nat)) :
    ts.mapM (s.queueEntity types container) =
      if ts.any fun e => e.1 && s.isProtected types e.2 && !(s.heap.get e.2).redacted then
        .error .protectedInEagerField
      else .ok (ts.map fun e => if s.isOpen e.2 then some (e.2, container) else none) := by
  induction ts with
  | nil => rfl
  | cons e ts ih =>
      have hone : s.queueEntity types container e =
          if e.1 && s.isProtected types e.2 && !(s.heap.get e.2).redacted then
            .error .protectedInEagerField
          else .ok (if s.isOpen e.2 then some (e.2, container) else none) := by
        unfold queueEntity isOpen
        cases (s.heap.get e.2).oid <;> rfl
      rw [List.mapM_cons, List.any_cons, List.map_cons, ih, hone]
      cases (e.1 && s.isProtected types e.2 && !(s.heap.get e.2).redacted) with
      | true => rfl
      | false =>
          cases (ts.any fun e => e.1 && s.isProtected types e.2 && !(s.heap.get e.2).redacted) <;>
            rfl

theorem filterMap_queued (ts : List (Bool × Nat)) (container : Option Nat) (q : Nat → Bool) :
    ((ts.map fun e => if q e.2 then some (e.2, container) else none).filterMap id).map Prod.fst =
      (ts.map Prod.snd).filter q := by
  induction ts with
  | nil => rfl
  | cons e ts ih =>
      rw [List.map_cons, List.map_cons, List.filter_cons]
      by_cases hq : q e.2 = true
      · rw [if_pos hq, if_pos hq, List.filterMap_cons_some (f := id) rfl, List.map_cons, ih]
      · rw [if_neg hq, if_neg hq, List.filterMap_cons_none (f := id) rfl, ih]

section Walking

variable {marks : List (Nat ⊕ Nat)} {walked : List Nat}

/-- The entities to walk next are those the first store names. -/
theorem Walking.fieldEntities (h : Walking types p s t marks walked) (hc : Coherent kind s) (o : Nat)
    (hsize : o < s.heap.size) (hopen : s.unsettled marks o = true) :
    (s.holdsEager types o = true → t.fieldEntities types o = .error .protectedInEagerField) ∧
    (s.holdsEager types o = false → ∃ found, t.fieldEntities types o = .ok found ∧
      found.map Prod.fst = s.leadsTo types marks o) := by
  -- The walk so far has changed no class and no flag.
  have hany : ((s.fieldTargets types o).any fun e =>
      e.1 && t.isProtected types e.2 && !(t.heap.get e.2).redacted) =
      (s.fieldTargets types o).any fun e =>
        e.1 && s.isProtected types e.2 && !(s.heap.get e.2).redacted := by
    congr 1
    funext e
    rw [h.isProtected, (h.same e.2).2.2.2]
  -- Each target is queued by the marks alone.
  have hqueue : ∀ container, (s.fieldTargets types o).mapM (t.queueEntity types container) =
      if (s.fieldTargets types o).any fun e =>
        e.1 && s.isProtected types e.2 && !(s.heap.get e.2).redacted then
        .error .protectedInEagerField
      else .ok ((s.fieldTargets types o).map fun e =>
        if s.unsettled marks e.2 then some (e.2, container) else none) := by
    intro container
    rw [mapM_queueEntity, hany]
    congr 2
    refine List.map_congr_left fun e _ => ?_
    rw [h.isOpen hc]
  unfold Store.fieldEntities holdsEager leadsTo
  rw [h.info, h.fieldTargets, hopen]
  cases hrefs : (s.info types o).hasEntityRefs with
  | false =>
      refine ⟨fun hf => by simp at hf, fun _ => ⟨[], by simp, by simp⟩⟩
  | true =>
      simp only [if_true, hqueue, Bool.true_and, hsize, decide_true]
      refine ⟨fun heager => ?_, fun heager => ?_⟩
      · rw [if_pos heager]
        rfl
      · rw [if_neg (by rw [heager]; exact Bool.false_ne_true)]
        exact ⟨_, rfl, filterMap_queued _ _ _⟩

end Walking

/-- What registering an entity does to the rest of the store. -/
theorem register_frame (types : Types) (p : Principal) (o : Nat) (container : Option Nat)
    (s : Store) : let t := s.register types p o container
    t.alloc.nextOid = s.alloc.nextOid + 1 ∧ t.heap.size = s.heap.size ∧
      t.new = s.new.set s.alloc.nextOid o ∧ t.dirty = s.dirty ∧
      (∀ n, (t.heap.get n).cls = (s.heap.get n).cls ∧ (t.heap.get n).data = (s.heap.get n).data ∧
        (t.heap.get n).state = (s.heap.get n).state ∧
        (t.heap.get n).redacted = (s.heap.get n).redacted) ∧
      ∀ n, (t.heap.get n).oid = if n = o then some s.alloc.nextOid else (s.heap.get n).oid := by
  intro t
  -- The entity gets the next id, and every other is as it was.
  have hadopt : ∀ n, (s.adopt o).heap.get n = if n = o then
      { s.heap.get o with oid := some s.alloc.nextOid } else s.heap.get n := fun n =>
    Heap.get_set _ _ _ _
  have hstamp : ∀ n, ((s.adopt o).stampPermLabels p o s.alloc.nextOid container).heap.get n =
      if n = o then { (s.adopt o).heap.get o with
        labels := (s.adopt o).bornLabels p o container, stampedBy := some p.uid }
      else (s.adopt o).heap.get n := fun n => Heap.get_set _ _ _ _
  unfold t register
  split
  -- A protected one is stamped as well, which changes its labels alone.
  · refine ⟨rfl, rfl, rfl, rfl, fun n => ?_, fun n => ?_⟩
    · rw [hstamp, hadopt, hadopt]
      by_cases hn : n = o
      · rw [if_pos hn, if_pos rfl, hn]
        exact ⟨rfl, rfl, rfl, rfl⟩
      · rw [if_neg hn, if_neg hn]
        exact ⟨rfl, rfl, rfl, rfl⟩
    · rw [hstamp, hadopt, hadopt]
      by_cases hn : n = o
      · rw [if_pos hn, if_pos rfl, if_pos hn]
      · rw [if_neg hn, if_neg hn, if_neg hn]
  · refine ⟨rfl, rfl, rfl, rfl, fun n => ?_, fun n => ?_⟩
    · rw [hadopt]
      by_cases hn : n = o
      · rw [if_pos hn, hn]
        exact ⟨rfl, rfl, rfl, rfl⟩
      · rw [if_neg hn]
        exact ⟨rfl, rfl, rfl, rfl⟩
    · rw [hadopt]
      by_cases hn : n = o
      · rw [if_pos hn, if_pos hn]
      · rw [if_neg hn, if_neg hn]

section Entry

variable {marks : List (Nat ⊕ Nat)} {walked : List Nat} {o : Nat}

/-- Setting the mark of an object that has an OID. -/
theorem Walking.mark_old (h : Walking types p s t marks walked) {k : Nat}
    (hlt : k < s.alloc.nextOid) : Walking types p s t (.inl k :: marks) (k :: walked) := by
  have hinr : ∀ n : Nat, Sum.inr n ∈ (Sum.inl k :: marks : List (Nat ⊕ Nat)) ↔ Sum.inr n ∈ marks := by
    simp
  refine { h with
    count := h.count, notYet := fun n hn hm => h.notYet n hn fun hc => hm ((hinr n).mpr hc)
    adopted := fun n hn hm => ?_, walkedOld := fun j hj => ?_, walkedBelow := fun j hj => ?_
    allowed := fun n hm => h.allowed n ((hinr n).mp hm) }
  · rcases h.adopted n hn ((hinr n).mp hm) with ⟨j, hj, hrest⟩
    exact ⟨j, List.mem_cons_of_mem k hj, hrest⟩
  · rw [List.mem_cons, List.mem_cons, h.walkedOld j hj, Sum.inl.injEq]
  · rcases List.mem_cons.mp hj with rfl | hj
    · have hcount := h.count
      omega
    · exact h.walkedBelow j hj

/-- Registering an object, and setting its mark. -/
theorem Walking.register (h : Walking types p s t marks walked) (hoid : (s.heap.get o).oid = none)
    (hm : .inr o ∉ marks) (hallowed : s.isProtected types o = true → p.uid ≠ 0)
    (container : Option Nat) : Walking types p s (t.register types p o container) (.inr o :: marks)
      (t.alloc.nextOid :: walked) := by
  rcases register_frame types p o container t with ⟨hnext, hsize, hnew, hdirty, hsame, hoids⟩
  have hle : s.alloc.nextOid ≤ t.alloc.nextOid := by
    have hcount := h.count
    omega
  refine ⟨?_, hsize.trans h.size, fun n => ?_, fun n k hk => ?_, fun n hn hmem => ?_,
    fun n hn hmem => ?_, fun k hk => ?_, fun k hk => ?_, hdirty.trans h.dirty, fun k hk => ?_,
    fun k hk => ?_, fun n hmem => ?_⟩
  -- One more adoption: the counter, the mark and the buffer of new entities move together.
  · rw [hnext, h.count, adoptions_inr]
    omega
  · rcases hsame n with ⟨hcls, hdata, hstate, hred⟩
    rcases h.same n with ⟨hcls', hdata', hstate', hred'⟩
    exact ⟨hcls.trans hcls', hdata.trans hdata', hstate.trans hstate', hred.trans hred'⟩
  · have hne : n ≠ o := by
      rintro rfl
      rw [hoid] at hk
      cases hk
    rw [hoids, if_neg hne]
    exact h.old n k hk
  · have hne : n ≠ o := fun hc => hmem (by rw [hc]; exact List.mem_cons_self)
    rw [hoids, if_neg hne]
    exact h.notYet n hn fun hc => hmem (List.mem_cons_of_mem _ hc)
  · by_cases hne : n = o
    · refine ⟨t.alloc.nextOid, List.mem_cons_self, ?_, ?_⟩
      · rw [hoids, if_pos hne]
      · rw [hnew, hne]
        exact Dict.get?_set_self _ _ _
    · have hmem' : .inr n ∈ marks := by
        rcases List.mem_cons.mp hmem with heq | hmem
        · exact absurd (Sum.inr.inj heq) hne
        · exact hmem
      rcases h.adopted n hn hmem' with ⟨k, hk, hkoid, hknew⟩
      refine ⟨k, List.mem_cons_of_mem _ hk, ?_, ?_⟩
      · rw [hoids, if_neg hne]
        exact hkoid
      · rw [hnew, Dict.get?_set_ne _ _ (Nat.ne_of_lt (h.walkedBelow k hk))]
        exact hknew
  · rw [hnew, Dict.get?_set_ne _ _ (by omega)]
    exact h.newOld k hk
  · rw [hnew, hnext, Dict.get?_set]
    by_cases hkn : k = t.alloc.nextOid
    · rw [if_pos hkn]
      simp [hkn]
    · rw [if_neg hkn, h.newFresh k hk]
      omega
  · rw [List.mem_cons, List.mem_cons, h.walkedOld k hk]
    simp
    omega
  · rw [hnext]
    rcases List.mem_cons.mp hk with rfl | hk
    · exact Nat.lt_succ_self _
    · exact Nat.lt_succ_of_lt (h.walkedBelow k hk)
  · rcases List.mem_cons.mp hmem with heq | hmem
    · rw [Sum.inr.inj heq]
      exact hallowed
    · exact h.allowed n hmem

end Entry

/-- An entity that has been walked is not gone on from. -/
theorem expand_walked (e : Queued) {walked : List Nat} {oid : Nat} (fresh : Bool) (h : oid ∈ walked) :
    expand types p e walked oid fresh t = .ok ([], walked) t := by
  rw [expand, bind_run_ok (get_run t), if_pos (List.contains_iff_mem.mpr h)]
  rfl

/-- Nor is one that is settled. -/
theorem expand_settled (e : Queued) {walked : List Nat} {oid : Nat} (fresh : Bool) (h : oid ∉ walked)
    (hb : t.isBuffered oid = false) :
    expand types p e walked oid fresh t = .ok ([], oid :: walked) t := by
  have hc : ¬walked.contains oid = true := fun hc => h (List.contains_iff_mem.mp hc)
  rw [expand, bind_run_ok (get_run t), if_neg hc, if_neg (by rw [hb]; exact Bool.false_ne_true)]
  rfl

/-- A buffered one is stamped, and its fields are looked at. -/
theorem expand_open (e : Queued) {walked : List Nat} {oid : Nat} (fresh : Bool) (h : oid ∉ walked)
    (hb : t.isBuffered oid = true) :
    let u := if fresh && t.isProtected types e.1 then t.stampPermLabels p e.1 oid e.2 else t
    (∀ err, u.fieldEntities types e.1 = .error err →
      expand types p e walked oid fresh t = .error err u) ∧
    ∀ found, u.fieldEntities types e.1 = .ok found →
      expand types p e walked oid fresh t = .ok (found, oid :: walked) u := by
  intro u
  have hc : ¬walked.contains oid = true := fun hc => h (List.contains_iff_mem.mp hc)
  have hstamp : stampIfFresh types p e oid fresh t = .ok () u := by
    unfold stampIfFresh u
    rw [bind_run_ok (get_run t)]
    split <;> rfl
  rw [expand, bind_run_ok (get_run t), if_neg hc, if_pos hb, bind_run_ok hstamp,
    bind_run_ok (get_run u)]
  refine ⟨fun err herr => ?_, fun found hfound => ?_⟩
  · rw [herr]
    rfl
  · rw [hfound]
    rfl

section Entry

variable {marks : List (Nat ⊕ Nat)} {walked : List Nat}

theorem turnedAway_none_iff (o : Nat) : s.turnedAway types p o = none ↔
    s.requireStorable o = .ok () ∧
      ((s.heap.get o).oid = none → s.isProtected types o = true → p.uid ≠ 0) := by
  unfold turnedAway
  cases hreq : s.requireStorable o with
  | error err => simp
  | ok u =>
      cases hoid : (s.heap.get o).oid with
      | some k => simp
      | none => cases hprot : s.isProtected types o <;> simp

/-- An object that is not storable is turned away before anything else happens. -/
theorem registerOne_turned (h : Walking types p s t marks walked) (e : Queued) {err : Err}
    (herr : s.turnedAway types p e.1 = some err) :
    registerOne types p e walked t = .error err t := by
  unfold turnedAway at herr
  rw [registerOne, bind_run_ok (get_run t), h.requireStorable]
  cases hreq : s.requireStorable e.1 with
  | error err' =>
      rw [hreq] at herr
      cases herr
      rfl
  | ok u =>
      rw [hreq] at herr
      have hcond : ((s.heap.get e.1).oid.isNone && s.isProtected types e.1 && p.uid = 0) = true ∧
          Err.writeDenied .anonymousCreate = err := by
        by_cases hcond : ((s.heap.get e.1).oid.isNone && s.isProtected types e.1 && p.uid = 0) = true
        · simp only [hcond, if_true, Option.some.injEq] at herr
          exact ⟨hcond, herr⟩
        · simp only [hcond, Bool.false_eq_true, if_false] at herr
          cases herr
      rcases hcond with ⟨hcond, rfl⟩
      simp only [Bool.and_eq_true, decide_eq_true_eq, Option.isNone_iff_eq_none] at hcond
      rcases hcond with ⟨⟨hnone, hprot⟩, huid⟩
      -- It was not adopted on the way.
      have hmark : .inr e.1 ∉ marks := fun hm => h.allowed e.1 hm hprot huid
      have hraise : oidOrAdopt types p e.1 t = .error (.writeDenied .anonymousCreate) t := by
        rw [oidOrAdopt_of_none (h.notYet e.1 hnone hmark), h.isProtected, hprot, huid]
        rfl
      change (oidOrAdopt types p e.1 >>= fun oid =>
        expand types p e walked oid (t.heap.get e.1).oid.isNone) t = _
      rw [bind_run, hraise]

/-- One that was walked is skipped. -/
theorem registerOne_skips (h : Walking types p s t marks walked) (hc : Coherent kind s) (e : Queued)
    (hturned : s.turnedAway types p e.1 = none) (hmark : s.walkMark e.1 ∈ marks) :
    registerOne types p e walked t = .ok ([], walked) t := by
  rcases (turnedAway_none_iff e.1).mp hturned with ⟨hreq, -⟩
  rcases (requireStorable_ok_iff s e.1).mp hreq with ⟨-, hstate, -⟩
  have hmet : ∃ k ∈ walked, (t.heap.get e.1).oid = some k := by
    cases hoid : (s.heap.get e.1).oid with
    | some k =>
        unfold walkMark at hmark
        simp only [hoid] at hmark
        exact ⟨k, (h.walkedOld k (hc.oid_below hoid hstate)).mpr hmark, h.old e.1 k hoid⟩
    | none =>
        unfold walkMark at hmark
        simp only [hoid] at hmark
        rcases h.adopted e.1 hoid hmark with ⟨k, hk, hkoid, -⟩
        exact ⟨k, hk, hkoid⟩
  rcases hmet with ⟨k, hk, hkoid⟩
  rw [registerOne, bind_run_ok (get_run t), h.requireStorable, hreq]
  change (oidOrAdopt types p e.1 >>= fun oid =>
    expand types p e walked oid (t.heap.get e.1).oid.isNone) t = _
  rw [bind_run_ok (oidOrAdopt_of_some hkoid)]
  exact expand_walked e _ hk

/-- The store after an entity that is met for the first time. -/
def metFirst (types : Types) (p : Principal) (s : Store) (e : Queued) (t : Store) : Store :=
  if (s.heap.get e.1).oid.isNone then t.register types p e.1 e.2 else t

/-- What is met for the first time on its way into the walk, refused or not. -/
def MetFresh (types : Types) (p : Principal) (s : Store) (e : Queued)
    (marks : List (Nat ⊕ Nat)) (walked : List Nat) (t : Store) : Prop :=
  ∃ k, Walking types p s (s.metFirst types p e t) (s.walkMark e.1 :: marks) (k :: walked) ∧
    (∀ err, s.refused types p (e.1, true) = some err →
      registerOne types p e walked t = .error err (s.metFirst types p e t)) ∧
    (s.refused types p (e.1, true) = none → ∃ found,
      registerOne types p e walked t = .ok (found, k :: walked) (s.metFirst types p e t) ∧
      found.map Prod.fst = s.leadsTo types (s.walkMark e.1 :: marks) e.1)

/-- What may be stored is given an OID if it has none, and gone on from. -/
theorem Walking.registerOne_run (h : Walking types p s t marks walked) {e : Queued}
    (hreq : s.requireStorable e.1 = .ok ()) : registerOne types p e walked t =
      (oidOrAdopt types p e.1 >>= fun oid =>
        expand types p e walked oid (t.heap.get e.1).oid.isNone) t := by
  rw [registerOne, bind_run_ok (get_run t), h.requireStorable, hreq]
  rfl

/-- Of what is not turned away, only an eager reference in an open entity is refused. -/
theorem refused_open {e : Queued} (hturned : s.turnedAway types p e.1 = none) :
    s.refused types p (e.1, true) =
      if s.unsettled [] e.1 && s.holdsEager types e.1 then some .protectedInEagerField else none := by
  unfold refused
  simp only [hturned, Option.none_or, Bool.true_and]

/-- The fields of an open entity, read in the store that the walk has come to, raise
    what the walk refuses, or name what it goes on with. -/
theorem Walking.fields_answer {u : Store} (hu : Walking types p s u marks walked)
    (hc : Coherent kind s) {e : Queued} (hturned : s.turnedAway types p e.1 = none)
    (hsize : e.1 < s.heap.size) (hopen : s.unsettled marks e.1 = true)
    (hopen₀ : s.unsettled [] e.1 = true) :
    (∀ err, s.refused types p (e.1, true) = some err → u.fieldEntities types e.1 = .error err) ∧
      (s.refused types p (e.1, true) = none → ∃ found, u.fieldEntities types e.1 = .ok found ∧
        found.map Prod.fst = s.leadsTo types marks e.1) := by
  rcases hu.fieldEntities hc e.1 hsize hopen with ⟨heager, hplain⟩
  rw [refused_open hturned, hopen₀, Bool.true_and]
  cases hholds : s.holdsEager types e.1 with
  | true =>
      refine ⟨fun err herr => ?_, fun hno => absurd hno (by simp)⟩
      cases herr
      exact heager hholds
  | false => exact ⟨fun err herr => absurd herr (by simp), fun _ => hplain hholds⟩

/-- An entity that had an OID before the walk is gone on from if it is buffered. -/
theorem registerOne_known (h : Walking types p s t marks walked) (hc : Coherent kind s) (e : Queued)
    (hturned : s.turnedAway types p e.1 = none) (hmark : s.walkMark e.1 ∉ marks) {k : Nat}
    (hoid : (s.heap.get e.1).oid = some k) : MetFresh types p s e marks walked t := by
  rcases (requireStorable_ok_iff s e.1).mp ((turnedAway_none_iff e.1).mp hturned).1 with
    ⟨hsize, hstate, -⟩
  have hlt := hc.oid_below hoid hstate
  have hmarkk : s.walkMark e.1 = .inl k := by
    unfold walkMark
    simp only [hoid]
  have hmet : s.metFirst types p e t = t := by
    unfold metFirst
    simp [hoid]
  have hold := h.old e.1 k hoid
  unfold MetFresh
  rw [hmarkk] at hmark ⊢
  have hnot : k ∉ walked := fun hk => hmark ((h.walkedOld k hlt).mp hk)
  have hnext := h.mark_old hlt
  have hisOpen : t.isBuffered k = s.unsettled marks e.1 := by
    have hopen := h.isOpen hc e.1
    unfold Store.isOpen at hopen
    simp only [hold] at hopen
    exact hopen
  -- No mark settles it: whether it is open was decided before the walk.
  have hstatic : ∀ marks', s.unsettled marks' e.1 = s.unsettled [] e.1 := by
    intro marks'
    unfold unsettled
    simp only [hoid]
    have hnle : ¬s.alloc.nextOid ≤ k := by omega
    simp [hnle]
  rw [hmet]
  refine ⟨k, hnext, ?_⟩
  rw [h.registerOne_run ((turnedAway_none_iff e.1).mp hturned).1,
    bind_run_ok (oidOrAdopt_of_some hold), hold]
  cases hopen : s.unsettled [] e.1 with
  | false =>
      have hsettled : t.isBuffered k = false := by rw [hisOpen, hstatic, hopen]
      rw [expand_settled e _ hnot hsettled]
      refine ⟨fun err herr => ?_, fun _ => ⟨[], rfl, ?_⟩⟩
      · rw [refused_open hturned, hopen] at herr
        cases herr
      · unfold leadsTo
        rw [hstatic, hopen]
        simp
  | true =>
      have hbuffered : t.isBuffered k = true := by rw [hisOpen, hstatic, hopen]
      rcases @expand_open types p _ e _ _ false hnot hbuffered with ⟨herror, hok⟩
      rcases hnext.fields_answer hc hturned hsize (by rw [hstatic, hopen]) hopen with ⟨hbad, hgood⟩
      refine ⟨fun err herr => herror err (hbad err herr), fun hno => ?_⟩
      rcases hgood hno with ⟨found, hfound, hleads⟩
      exact ⟨found, hok found hfound, hleads⟩

/-- An entity without an OID is registered, and always gone on from. -/
theorem registerOne_new (h : Walking types p s t marks walked) (hc : Coherent kind s) (e : Queued)
    (hturned : s.turnedAway types p e.1 = none) (hmark : s.walkMark e.1 ∉ marks)
    (hoid : (s.heap.get e.1).oid = none) : MetFresh types p s e marks walked t := by
  rcases (turnedAway_none_iff e.1).mp hturned with ⟨hreq, hallowed⟩
  have hsize := ((requireStorable_ok_iff s e.1).mp hreq).1
  have hmarko : s.walkMark e.1 = .inr e.1 := by
    unfold walkMark
    simp only [hoid]
  have hmet : s.metFirst types p e t = t.register types p e.1 e.2 := by
    unfold metFirst
    simp [hoid]
  unfold MetFresh
  rw [hmarko] at hmark ⊢
  have hnotYet := h.notYet e.1 hoid hmark
  have hnext := h.register hoid hmark (hallowed hoid) e.2
  have hopen : ∀ marks', s.unsettled marks' e.1 = true := by
    intro marks'
    unfold unsettled
    simp only [hoid]
  have hadopt : oidOrAdopt types p e.1 t = .ok t.alloc.nextOid (t.adopt e.1) := by
    rw [oidOrAdopt_of_none hnotYet, h.isProtected, if_neg]
    simp only [Bool.and_eq_true, decide_eq_true_eq, not_and]
    exact hallowed hoid
  have hnot : t.alloc.nextOid ∉ walked := fun hk => absurd (h.walkedBelow _ hk) (Nat.lt_irrefl _)
  have hbuffered : (t.adopt e.1).isBuffered t.alloc.nextOid = true := by
    simp [isBuffered, Dict.contains, get?_new_adopt]
  rw [hmet]
  refine ⟨t.alloc.nextOid, hnext, ?_⟩
  rw [h.registerOne_run hreq, bind_run_ok hadopt, hnotYet]
  -- The labels are stamped between the adoption and the fields.
  have hu : (if true && (t.adopt e.1).isProtected types e.1 then
      (t.adopt e.1).stampPermLabels p e.1 t.alloc.nextOid e.2 else t.adopt e.1) =
      t.register types p e.1 e.2 := by
    rw [isProtected_adopt, Bool.true_and]
    rfl
  rcases @expand_open types p _ e _ _ true hnot hbuffered with ⟨herror, hok⟩
  rw [hu] at herror hok
  rcases hnext.fields_answer hc hturned hsize (hopen _) (hopen _) with ⟨hbad, hgood⟩
  refine ⟨fun err herr => herror err (hbad err herr), fun hno => ?_⟩
  rcases hgood hno with ⟨found, hfound, hleads⟩
  exact ⟨found, hok found hfound, hleads⟩

/-- One that is met for the first time is registered if it has no OID, and gone on
    from unless a field refuses it. -/
theorem registerOne_fresh (h : Walking types p s t marks walked) (hc : Coherent kind s) (e : Queued)
    (hturned : s.turnedAway types p e.1 = none) (hmark : s.walkMark e.1 ∉ marks) :
    MetFresh types p s e marks walked t := by
  cases hoid : (s.heap.get e.1).oid with
  | some k => exact registerOne_known h hc e hturned hmark hoid
  | none => exact registerOne_new h hc e hturned hmark hoid

end Entry

/-- Meeting an entity gives at most this one an OID. -/
theorem oid_metFirst (types : Types) (p : Principal) (s : Store) (e : Queued) {t : Store} {o k : Nat}
    (hnone : (s.heap.get e.1).oid = none → (t.heap.get e.1).oid = none)
    (hk : (t.heap.get o).oid = some k) : ((s.metFirst types p e t).heap.get o).oid = some k := by
  unfold metFirst
  split
  · rename_i hs
    have hne : o ≠ e.1 := by
      rintro rfl
      rw [hnone (Option.isNone_iff_eq_none.mp hs)] at hk
      cases hk
    rw [(register_frame types p e.1 e.2 t).2.2.2.2.2, if_neg hne]
    exact hk
  · exact hk

/-- The store `u` a walk leaves that began in `t` and was refused. Either it has
    registered nothing, and then it is the store of before, or some entity has an
    OID that had none. -/
structure Refuses (registered : Bool) (t u : Store) : Prop where
  kept : ∀ o k, (t.heap.get o).oid = some k → (u.heap.get o).oid = some k
  intact : registered = false → u = t
  left : registered = true → ∃ o k, (t.heap.get o).oid = none ∧ (u.heap.get o).oid = some k

theorem Refuses.trans {r r' : Bool} {u v : Store} (h : Refuses r t u) (h' : Refuses r' u v) :
    Refuses (r || r') t v := by
  refine ⟨fun o k hk => h'.kept o k (h.kept o k hk), fun hno => ?_, fun hsome => ?_⟩
  · rcases Bool.or_eq_false_iff.mp hno with ⟨hr, hr'⟩
    rw [h'.intact hr', h.intact hr]
  · cases hr : r with
    | true =>
        rcases h.left hr with ⟨o, k, hbefore, hafter⟩
        exact ⟨o, k, hbefore, h'.kept o k hafter⟩
    | false =>
        rw [hr, Bool.false_or] at hsome
        rcases h'.left hsome with ⟨o, k, hbefore, hafter⟩
        rw [h.intact hr] at hbefore
        exact ⟨o, k, hbefore, hafter⟩

/-- An entity that has no OID is registered when it is met, whatever comes then. -/
theorem metFirst_refuses (types : Types) (p : Principal) (s : Store) (e : Queued)
    (hnone : (s.heap.get e.1).oid = none → (t.heap.get e.1).oid = none) :
    Refuses (s.heap.get e.1).oid.isNone t (s.metFirst types p e t) := by
  refine ⟨fun o k hk => oid_metFirst types p s e hnone hk, fun hsome => ?_, fun hno => ?_⟩
  · unfold metFirst
    rw [hsome]
    rfl
  · have hoid : (s.heap.get e.1).oid = none := Option.isNone_iff_eq_none.mp hno
    refine ⟨e.1, t.alloc.nextOid, hnone hoid, ?_⟩
    unfold metFirst
    rw [if_pos hno, (register_frame types p e.1 e.2 t).2.2.2.2.2, if_pos rfl]

/-- A walk is refused for the first of the objects it meets that is refused, and
    otherwise ends. -/
theorem registerLoop_walks (hc : Coherent kind s) (fuel : Nat) :
    ∀ {t : Store} (queue : List Queued) {marks : List (Nat ⊕ Nat)} {walked : List Nat},
      Walking types p s t marks walked →
      let r := (s.walkGraph types).walk fuel (queue.map Prod.fst) marks
      (∀ err, r.1.findSome? (s.refused types p) = some err → ∃ u,
        registerLoop types p fuel queue walked t = .error err u ∧
          Refuses (s.registersFirst types p r.1) t u) ∧
      (r.1.findSome? (s.refused types p) = none → ∃ walked' u,
        registerLoop types p fuel queue walked t = .ok walked' u ∧
          Walking types p s u r.2 walked') := by
  induction fuel with
  | zero =>
      intro t queue marks walked h
      exact ⟨fun err herr => absurd herr (by simp [WalkGraph.walk]),
        fun _ => ⟨walked, t, rfl, h⟩⟩
  | succ fuel ih =>
      intro t queue marks walked h
      cases queue with
      | nil =>
          exact ⟨fun err herr => absurd herr (by simp [WalkGraph.walk]),
            fun _ => ⟨walked, t, rfl, h⟩⟩
      | cons e queue =>
          rw [List.map_cons]
          have hrun : registerLoop types p (fuel + 1) (e :: queue) walked t =
              (registerOne types p e walked >>= fun r =>
                registerLoop types p fuel (queue ++ r.1) r.2) t := rfl
          have hfirst : s.turnedAway types p e.1 = none →
              s.refused types p (e.1, false) = none := by
            intro hnone
            unfold refused
            simp [hnone]
          cases hturned : s.turnedAway types p e.1 with
          | some err₀ =>
              -- Whether or not its mark is set, the object is refused.
              have hraise := registerOne_turned h e hturned
              have hrefused : ∀ on, s.refused types p (e.1, on) = some err₀ := by
                intro on
                unfold refused
                simp [hturned]
              have hwalk : ∃ on rest, ((s.walkGraph types).walk (fuel + 1)
                  (e.1 :: queue.map Prod.fst) marks).1 = (e.1, on) :: rest := by
                by_cases hm : (s.walkGraph types).mark e.1 ∈ marks
                · exact ⟨_, _, congrArg Prod.fst (WalkGraph.walk_marked hm)⟩
                · exact ⟨_, _, congrArg Prod.fst (WalkGraph.walk_fresh hm)⟩
              rcases hwalk with ⟨on, rest, hwalk⟩
              intro r
              have hr : r.1 = (e.1, on) :: rest := hwalk
              rw [hr, List.findSome?_cons, hrefused]
              refine ⟨fun err herr => ?_, fun hno => absurd hno (by simp)⟩
              cases herr
              refine ⟨t, by rw [hrun, bind_run, hraise], ⟨fun _ _ hk => hk, fun _ => rfl, ?_⟩⟩
              unfold registersFirst
              simp [hturned]
          | none =>
              by_cases hm : (s.walkGraph types).mark e.1 ∈ marks
              · -- its mark is set: nothing happens, and the walk goes on
                have hskip := registerOne_skips h hc e hturned hm
                rw [WalkGraph.walk_marked hm]
                dsimp only
                rw [List.findSome?_cons, hfirst hturned, hrun, bind_run_ok hskip,
                  List.append_nil]
                have hreg : ∀ ms, s.registersFirst types p ((e.1, false) :: ms) =
                    s.registersFirst types p ms := by
                  intro ms
                  rw [registersFirst, hturned, hfirst hturned]
                  simp
                rw [hreg]
                exact ih queue h
              · -- it is met for the first time: registered, read, and its targets queued
                have hnone : (s.heap.get e.1).oid = none → (t.heap.get e.1).oid = none := by
                  intro hoid
                  refine h.notYet e.1 hoid fun hmem => hm ?_
                  change s.walkMark e.1 ∈ marks
                  unfold walkMark
                  simp only [hoid]
                  exact hmem
                have hmet := metFirst_refuses types p s e hnone
                rcases registerOne_fresh h hc e hturned hm with ⟨k, hnext, hbad, hgood⟩
                rw [WalkGraph.walk_fresh hm]
                dsimp only
                rw [List.findSome?_cons, registersFirst, hturned]
                cases href : s.refused types p (e.1, true) with
                | some err₀ =>
                    refine ⟨fun err herr => ?_, fun hno => absurd hno (by simp)⟩
                    cases herr
                    exact ⟨_, by rw [hrun, bind_run, hbad _ href], by simpa using hmet⟩
                | none =>
                    rcases hgood href with ⟨found, hone, hfound⟩
                    rw [hrun, bind_run_ok hone]
                    have hmap : (queue ++ found).map Prod.fst = queue.map Prod.fst ++
                        (s.walkGraph types).next ((s.walkGraph types).mark e.1 :: marks) e.1 := by
                      rw [List.map_append, hfound]
                      rfl
                    have hrest := ih (queue ++ found) hnext
                    rw [hmap] at hrest
                    refine ⟨fun err herr => ?_, hrest.2⟩
                    rcases hrest.1 err herr with ⟨u, hloop, hu⟩
                    refine ⟨u, hloop, ?_⟩
                    simp only [Option.isNone_none, Bool.true_and]
                    exact hmet.trans hu

theorem Walking.registerFuel {marks : List (Nat ⊕ Nat)} {walked : List Nat}
    (h : Walking types p s t marks walked) : t.registerFuel types = s.registerFuel types := by
  unfold Store.registerFuel
  rw [h.size]
  congr 2
  exact List.map_congr_left fun o _ => congrArg List.length (h.fieldTargets o)

/-- What a walk from an object meets. -/
def walkFrom (types : Types) (s : Store) (o : Nat) (marks : List (Nat ⊕ Nat)) :
    List (Nat × Bool) × List (Nat ⊕ Nat) :=
  (s.walkGraph types).walk (s.registerFuel types) [o] marks

/-- A whole walk. -/
theorem registerGraph_walks (hc : Coherent kind s) {marks : List (Nat ⊕ Nat)} {walked : List Nat}
    (h : Walking types p s t marks walked) (o : Nat) :
    let r := s.walkFrom types o marks
    (∀ err, r.1.findSome? (s.refused types p) = some err → ∃ u,
      registerGraph types p o walked t = .error err u ∧ Refuses (s.registersFirst types p r.1) t u) ∧
    (r.1.findSome? (s.refused types p) = none → ∃ walked' u,
      registerGraph types p o walked t = .ok walked' u ∧ Walking types p s u r.2 walked') := by
  have hloop := registerLoop_walks hc (s.registerFuel types) [(o, none)] h
  have hrun : registerGraph types p o walked t =
      registerLoop types p (s.registerFuel types) [(o, none)] walked t := by
    rw [registerGraph, bind_run_ok (get_run t), h.registerFuel]
  rw [hrun]
  exact hloop

/-- The marks after the walks from some objects, one after the other. -/
def marksFrom (types : Types) (s : Store) (os : List Nat) (marks : List (Nat ⊕ Nat)) :
    List (Nat ⊕ Nat) :=
  os.foldl (fun marks o => (s.walkFrom types o marks).2) marks

/-- The walks of a commit that found nothing to refuse. -/
theorem walks_ok (hc : Coherent kind s) : ∀ (os : List Nat) {t : Store}
    {marks : List (Nat ⊕ Nat)} {walked : List Nat}, Walking types p s t marks walked →
    ∀ {walked' : List Nat} {u : Store},
      os.foldlM (fun walked o => registerGraph types p o walked) walked t = .ok walked' u →
      Walking types p s u (s.marksFrom types os marks) walked' := by
  intro os
  induction os with
  | nil =>
      intro t marks walked h walked' u hrun
      cases hrun
      exact h
  | cons o os ih =>
      intro t marks walked h walked' u hrun
      rw [List.foldlM_cons] at hrun
      rcases bind_ok_iff.mp hrun with ⟨walked₁, t₁, hone, hrest⟩
      rcases registerGraph_walks hc h o with ⟨hbad, hgood⟩
      cases href : (s.walkFrom types o marks).1.findSome? (s.refused types p) with
      | some err =>
          rcases hbad err href with ⟨u', herr, -⟩
          rw [herr] at hone
          cases hone
      | none =>
          rcases hgood href with ⟨walked₂, t₂, hok, hnext⟩
          rw [hok] at hone
          cases hone
          exact ih hnext hrest

theorem discover_walks (hc : Coherent kind s) {u : Unit}
    (h : discoverNewGraphs types p s = .ok u t) :
    ∃ walked, Walking types p s t (s.marksFrom types (s.new.values ++ s.dirty.values) []) walked := by
  unfold discoverNewGraphs at h
  rw [bind_run_ok (get_run s)] at h
  rcases bind_ok_iff.mp h with ⟨walked, t', hrun, hpure⟩
  cases hpure
  exact ⟨walked, walks_ok hc _ (walking_start hc) hrun⟩

/-- What an object leads to whatever was registered before. -/
theorem leadsTo_mono (marks : List (Nat ⊕ Nat)) {o n : Nat} (h : n ∈ s.leadsTo types [] o) :
    n ∈ s.leadsTo types marks o := by
  have hmono : ∀ o, s.unsettled [] o = true → s.unsettled marks o = true := by
    intro o
    unfold unsettled
    cases (s.heap.get o).oid with
    | none => exact id
    | some k =>
        have hnil : adoptions [] = 0 := rfl
        simp only [hnil, Nat.add_zero, Bool.or_eq_true, Bool.and_eq_true, decide_eq_true_eq]
        rintro (hbuf | ⟨hle, hlt⟩)
        · exact Or.inl hbuf
        · omega
  unfold leadsTo at h ⊢
  by_cases hcond : (o < s.heap.size && s.unsettled [] o && (s.info types o).hasEntityRefs) = true
  · rw [if_pos hcond, List.mem_filter] at h
    simp only [Bool.and_eq_true] at hcond
    rw [if_pos (by simp only [Bool.and_eq_true]; exact ⟨⟨hcond.1.1, hmono o hcond.1.2⟩, hcond.2⟩),
      List.mem_filter]
    exact ⟨h.1, hmono n h.2⟩
  · rw [if_neg hcond] at h
    cases h

/-- No two objects carry the same buffered OID. A mark of the walk is an OID or an
    object, and with this it stands for one object either way. -/
def OneInstance (s : Store) : Prop := ∀ o n k, (s.heap.get o).oid = some k →
  (s.heap.get n).oid = some k → s.isBuffered k = true → o = n

/-- Entities of one mark lead to the same targets: one of them is open only if it is
    the other. -/
theorem leadsTo_of_mark (hone : OneInstance s) {a b : Nat} (hab : s.walkMark a = s.walkMark b) :
    s.leadsTo types [] a = s.leadsTo types [] b := by
  unfold walkMark at hab
  cases ha : (s.heap.get a).oid with
  | none =>
      cases hb : (s.heap.get b).oid with
      | none =>
          simp only [ha, hb] at hab
          rw [Sum.inr.inj hab]
      | some k => simp only [ha, hb] at hab; cases hab
  | some k =>
      cases hb : (s.heap.get b).oid with
      | none => simp only [ha, hb] at hab; cases hab
      | some k' =>
          simp only [ha, hb] at hab
          rw [← Sum.inl.inj hab] at hb
          by_cases hbuf : s.isBuffered k = true
          · rw [hone a b k ha hb hbuf]
          · -- neither is walked through
            have hset : ∀ c, (s.heap.get c).oid = some k → s.unsettled [] c = false := by
              intro c hck
              have hnil : adoptions [] = 0 := rfl
              unfold unsettled
              simp only [hck, hnil, Nat.add_zero, hbuf, Bool.or_eq_false_iff,
                Bool.and_eq_false_iff, decide_eq_false_iff_not]
              exact ⟨trivial, by omega⟩
            unfold leadsTo
            rw [hset a ha, hset b hb]
            simp

/-- A walk ends because nothing is left in its queue: what it marks is closed under
    going on, as long as an OID stands for one object. -/
theorem closed_walkFrom (hone : OneInstance s) (o : Nat) {marks : List (Nat ⊕ Nat)}
    (h : (s.walkGraph types).Closed (s.leadsTo types []) marks) :
    (s.walkGraph types).Closed (s.leadsTo types []) (s.walkFrom types o marks).2 ∧
      s.walkMark o ∈ (s.walkFrom types o marks).2 := by
  have hempty : ∀ marks a, ¬a < s.heap.size → s.leadsTo types marks a = [] := by
    intro marks a ha
    unfold leadsTo
    rw [if_neg (by simp [ha])]
  -- The fuel counts the fields of the instances there are, and the walk queues no more.
  let width := fun a => if a < s.heap.size then (s.fieldTargets types a).length else 0
  have hwidth : ∀ marks a, ((s.walkGraph types).next marks a).length ≤ width a := by
    intro marks a
    change (s.leadsTo types marks a).length ≤ _
    by_cases ha : a < s.heap.size
    · unfold leadsTo width
      rw [if_pos ha]
      split
      · exact (List.length_filter_le _ _).trans (List.length_map _).le
      · exact Nat.zero_le _
    · rw [hempty marks a ha]
      exact Nat.zero_le _
  have hnodes : ∀ a, width a ≠ 0 → a ∈ List.range s.heap.size := by
    intro a ha
    by_contra hc
    exact ha (if_neg fun hlt => hc (List.mem_range.mpr hlt))
  have hfuel : (s.walkGraph types).pending width (List.range s.heap.size) [o] marks ≤
      s.registerFuel types := by
    unfold WalkGraph.pending Store.registerFuel
    rw [List.length_singleton, Nat.add_comm 1]
    refine Nat.add_le_add_right (List.sum_le_sum fun a ha => ?_) 1
    dsimp only [width]
    rw [if_pos (List.mem_range.mp ha)]
    split
    · exact Nat.zero_le _
    · exact le_rfl
  have hwalk := WalkGraph.closed_walk hwidth hnodes (fun marks a b hb => leadsTo_mono marks hb)
    (fun a b hab => leadsTo_of_mark hone hab) hfuel h
  exact ⟨hwalk.1, hwalk.2 o List.mem_cons_self⟩

theorem closed_marksFrom (hone : OneInstance s) : ∀ (os : List Nat) {marks : List (Nat ⊕ Nat)},
    (s.walkGraph types).Closed (s.leadsTo types []) marks →
    (s.walkGraph types).Closed (s.leadsTo types []) (s.marksFrom types os marks) ∧
      (∀ m ∈ marks, m ∈ s.marksFrom types os marks) ∧
      ∀ o ∈ os, s.walkMark o ∈ s.marksFrom types os marks := by
  intro os
  induction os with
  | nil => exact fun h => ⟨h, fun _ hm => hm, fun o ho => absurd ho List.not_mem_nil⟩
  | cons o os ih =>
      intro marks h
      rcases closed_walkFrom hone o h with ⟨hclosed, hmem⟩
      rcases ih hclosed with ⟨hclosed', hkept, hmarked⟩
      refine ⟨hclosed', fun m hm => hkept m ?_, fun n hn => ?_⟩
      · exact (WalkGraph.mem_walk_marks _ _ _ _).mpr (Or.inl hm)
      · rcases List.mem_cons.mp hn with rfl | hn
        · exact hkept _ hmem
        · exact hmarked n hn

end Store

end DataCrystal
