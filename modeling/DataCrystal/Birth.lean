import DataCrystal.Fence

/-!
# Birth Ownership

A protected record belongs to the principal that was acting when its entity was
registered. The gate takes the owner from a side table that registration fills
and the first phase empties; for an entity without an entry it falls back on the
labels of the entity itself, which the application may have assigned.

The side table never lies: an entry names the principal that stamped the entity
which is registered under the OID. What can be missing is the entry. A commit
whose batch storage refused has emptied the table, and the entities it buffers
again have none.

## Main definitions

* `BirthOk`: The entries of the side table name who stamped.
* `BirthRecorded`: No entity is without its entry.

## Theorems

* `run_birthOk`: The side table never lies.
* `birth_owner`: A record is born to the principal that registered it, if its
  entry is there.
-/

namespace DataCrystal

namespace Store

variable {types : Types} {p : Principal} {kind : Nat → String} {s t : Store}

/-- An entry of the side table is about an OID handed out since the last commit,
    and names who stamped the entity registered under it. -/
def BirthOk (s : Store) : Prop := ∀ k l, s.birthLabels.get? k = some l →
  s.backend.marks.nextOid ≤ k ∧ k < s.alloc.nextOid ∧
    ∀ o, s.new.get? k = some o → (s.heap.get o).stampedBy = some l.owner

theorem birthOk_of_empty (h : s.birthLabels = Dict.empty) : BirthOk s := by
  intro k l hk
  rw [h] at hk
  simp at hk

/-- A step that neither stamps nor registers. -/
theorem BirthOk.mono (h : BirthOk s) (hbirth : t.birthLabels = s.birthLabels)
    (hmarks : t.backend.marks = s.backend.marks) (halloc : s.alloc.nextOid ≤ t.alloc.nextOid)
    (hnew : ∀ k o, t.new.get? k = some o → s.new.get? k = some o ∧
      (t.heap.get o).stampedBy = (s.heap.get o).stampedBy) : BirthOk t := by
  intro k l hk
  rw [hbirth] at hk
  rcases h k l hk with ⟨hle, hlt, hstamp⟩
  refine ⟨by rw [hmarks]; exact hle, Nat.lt_of_lt_of_le hlt halloc, fun o ho => ?_⟩
  rw [(hnew k o ho).2]
  exact hstamp o (hnew k o ho).1

/-- A change of objects that leaves the stamps alone. -/
theorem stampedBy_modify {f : Entity → Entity} (hf : ∀ e, (f e).stampedBy = e.stampedBy)
    (s : Store) (o n : Nat) :
    ((s.modifyEntity o f).heap.get n).stampedBy = (s.heap.get n).stampedBy := by
  rw [get_modifyEntity]
  split
  · rename_i h
    rw [h]
    exact hf _
  · rfl

theorem stampedBy_setState (s : Store) (o : Nat) (st : EntityState) (n : Nat) :
    ((s.setState o st).heap.get n).stampedBy = (s.heap.get n).stampedBy :=
  stampedBy_modify (f := fun e => { e with state := st }) (fun _ => rfl) s o n

theorem get_stampPermLabels (s : Store) (o oid : Nat) (container : Option Nat) (n : Nat) :
    (s.stampPermLabels p o oid container).heap.get n =
      if n = o then { s.heap.get o with
        labels := s.bornLabels p o container, stampedBy := some p.uid }
      else s.heap.get n := Heap.get_set _ _ _ _

/-- The baseline of a registered entity is owned by who registered it. -/
theorem owner_birthBaseline (p : Principal) (s : Store) (o : Nat) (container : Option Nat) :
    (s.birthBaseline p o container).owner = p.uid := by
  cases container with
  | none => rfl
  | some c =>
      simp only [birthBaseline]
      split <;> rfl

theorem grow_birthOk (hstep : Grow types p s t) (hc : Coherent kind s) (h : BirthOk s) :
    BirthOk t := by
  cases hstep with
  | adopt o hsize hoid huid =>
      intro k l hk
      rcases h k l hk with ⟨hle, hlt, hstamp⟩
      refine ⟨hle, Nat.lt_succ_of_lt hlt, fun n hn => ?_⟩
      have hn' : s.new.get? k = some n := (Dict.get?_set_ne _ _ (Nat.ne_of_lt hlt)).symm.trans hn
      rw [get_adopt]
      split
      · rename_i hno
        rw [← hno]
        exact hstamp n hn'
      · exact hstamp n hn'
  | stamp o oid container hnew hprot =>
      intro k l hk
      have hobj := hc.objects.isNew oid o hnew
      by_cases hkoid : k = oid
      · rw [hkoid] at hk ⊢
        have hl : s.birthBaseline p o container = l :=
          Option.some.inj ((Dict.get?_set_self _ _ _).symm.trans hk)
        refine ⟨hobj.2.2, (hc.objects.newOf o oid hobj.2.1 hobj.1).2, fun n hn => ?_⟩
        have hno : o = n := Option.some.inj (hnew.symm.trans hn)
        rw [← hno, ← hl, get_stampPermLabels, if_pos rfl, owner_birthBaseline]
      · have hk' : s.birthLabels.get? k = some l := (Dict.get?_set_ne _ _ hkoid).symm.trans hk
        rcases h k l hk' with ⟨hle, hlt, hstamp⟩
        refine ⟨hle, hlt, fun n hn => ?_⟩
        have hno : n ≠ o := by
          rintro rfl
          exact hkoid (Option.some.inj ((hc.objects.isNew k n hn).1.symm.trans hobj.1))
        rw [get_stampPermLabels, if_neg hno]
        exact hstamp n hn

theorem prepares_birthOk (hstep : Prepares types p s t) (hc : Coherent kind s) (h : BirthOk s) :
    BirthOk t := by
  -- Most steps leave the new entities and who stamped them alone.
  have hsame : ∀ k o, s.new.get? k = some o → s.new.get? k = some o ∧
      (s.heap.get o).stampedBy = (s.heap.get o).stampedBy := fun k o ho => ⟨ho, rfl⟩
  rcases hstep with he | he
  · cases he with
    | grow hg => exact grow_birthOk hg hc h
    | load hl =>
        cases hl with
        -- A shell is a new instance, so the entities there are keep their stamps.
        | shell c oid rec hreg hrec hcls =>
            refine h.mono rfl rfl le_rfl fun k o ho => ⟨ho, ?_⟩
            have hlt := hc.objects.bounded o k (hc.objects.isNew k o ho).1
            exact congrArg Entity.stampedBy ((Heap.get_push _ _ _).trans (if_neg (Nat.ne_of_lt hlt)))
        | fill o name v =>
            refine h.mono rfl rfl le_rfl fun k n hn => ⟨hn, ?_⟩
            exact stampedBy_modify (fun e => by unfold Entity.assign; split <;> rfl) s o n
        | unregister o =>
            rw [unregister]
            split
            · exact h.mono rfl rfl le_rfl hsame
            · exact h
    | ensures => exact h.mono rfl rfl le_rfl hsame
    | reverse => exact h.mono rfl rfl le_rfl hsame
    | construct c fields =>
        refine h.mono rfl rfl le_rfl fun k o ho => ⟨ho, ?_⟩
        have hlt := hc.objects.bounded o k (hc.objects.isNew k o ho).1
        exact congrArg Entity.stampedBy ((Heap.get_push _ _ _).trans (if_neg (Nat.ne_of_lt hlt)))
    | firstWrite o hstate =>
        rw [onFirstWrite]
        split <;>
          exact h.mono rfl rfl le_rfl fun k n hn => ⟨hn, stampedBy_setState s o .dirty n⟩
    | edit o f hf hguard =>
        exact h.mono rfl rfl le_rfl fun k n hn => ⟨hn, stampedBy_modify hf.stampedBy s o n⟩
    | handle o f oid target =>
        have hsame' := stampedBy_modify (f := fun e =>
          { e with data := Function.update e.data f ((e.data f).withHandle oid target) })
          (fun _ => rfl) s o
        exact h.mono rfl rfl le_rfl fun k n hn => ⟨hn, hsame' n⟩
    -- What is cancelled is buffered no longer.
    | cancel o oid hstate hnames hroot =>
        exact h.mono rfl rfl le_rfl fun k n hn =>
          ⟨(get?_erase_some hn).1, stampedBy_setState s o .deleted n⟩
    | deleteObject o oid hstate hoid hroot =>
        exact h.mono rfl rfl le_rfl fun k n hn => ⟨hn, stampedBy_setState s o .deleted n⟩
    | deleteHolder oid c f key ci hci hheld hstate hroot =>
        cases hr : s.registry.get? oid with
        | none => exact h.mono rfl rfl le_rfl hsame
        | some o =>
            exact h.mono rfl rfl le_rfl fun k n hn => ⟨hn, stampedBy_setState s o .deleted n⟩
    | assignRoot => exact h.mono rfl rfl le_rfl hsame
    | pinRoot => exact h.mono rfl rfl le_rfl hsame
    | dropRoot => exact h.mono rfl rfl le_rfl hsame
    | upserts => exact h.mono rfl rfl le_rfl hsame
    | forget => exact h.mono rfl rfl le_rfl hsame
  · cases he with
    | blobOid => exact h.mono rfl rfl (Nat.le_succ _) hsame
    | shape c => exact h.mono rfl rfl le_rfl hsame

/-- A commit empties the side table once it has captured a batch. -/
theorem commit_birthOk (hc : Coherent kind s) (h : BirthOk s) (fault : Bool) :
    BirthOk (finalState (commit types p fault s)) := by
  rcases commit_cases types p fault s with hprep | ⟨s₁, m, out, t, hcap, hfinal⟩
  · exact (reflTransGen_invariant (I := fun s => Coherent kind s ∧ BirthOk s)
      (fun _ _ he hi => ⟨prepares_coherent he hi.1, prepares_birthOk he hi.1 hi.2⟩) hprep
      ⟨hc, h⟩).2
  · rw [hfinal]
    cases fault with
    | true =>
        rcases rollback_spec types (s₁.refEntries types) out (hcap.coherent hc) with
          ⟨hp, r, n, d, dl, heq, _⟩
        rw [if_pos rfl, captured, heq]
        exact birthOk_of_empty rfl
    | false =>
        rw [if_neg (by decide)]
        exact birthOk_of_empty (finalize_emptied types s₁ t out).2.1

/-- Every buffered protected entity without a record has its entry of the labels it
    was born with. A commit that fails in its second phase clears these entries and
    keeps the entities. -/
def BirthRecorded (types : Types) (s : Store) : Prop := ∀ k o, (k, o) ∈ s.pending.entries →
  s.isProtected types o = true → s.backend.objects.get? k = none → (s.birthLabels.get? k).isSome

instance : Decidable (BirthRecorded types s) :=
  decidable_of_iff (∀ e ∈ s.pending.entries, s.isProtected types e.2 = true →
    (s.backend.objects.get? e.1).isNone = true → (s.birthLabels.get? e.1).isSome = true)
    (by simp only [BirthRecorded, Prod.forall, Option.isNone_iff_eq_none])

/-- An object that may be stored has an OID that was handed out. -/
theorem Coherent.oid_below (h : Coherent kind s) {o k : Nat} (hoid : (s.heap.get o).oid = some k)
    (hstate : (s.heap.get o).state ≠ .deleted) : k < s.alloc.nextOid := by
  cases hst : (s.heap.get o).state with
  | new => exact (h.objects.newOf o k hst hoid).2
  | clean => exact Nat.lt_of_lt_of_le (h.objects.settled o k (Or.inl hst) hoid).1 h.storage.allocOid
  | dirty => exact Nat.lt_of_lt_of_le (h.objects.settled o k (Or.inr hst) hoid).1 h.storage.allocOid
  | deleted => exact absurd hst hstate

/-- What is pending beside a freshly adopted entity was pending before. -/
theorem pending_adopt (h : Coherent kind s) (ht : Coherent kind (s.adopt o)) {k n : Nat}
    (hp : (k, n) ∈ (s.adopt o).pending.entries) :
    (k, n) ∈ s.pending.entries ∨ k = s.alloc.nextOid ∧ n = o := by
  rcases (ht.mem_pending k n).mp hp with hnew | hdirty
  · by_cases hk : k = s.alloc.nextOid
    · rw [hk] at hnew
      exact Or.inr ⟨hk, (Option.some.inj ((get?_new_adopt s o).symm.trans hnew)).symm⟩
    · exact Or.inl ((h.mem_pending k n).mpr (Or.inl ((Dict.get?_set_ne _ _ hk).symm.trans hnew)))
  · exact Or.inl ((h.mem_pending k n).mpr (Or.inr hdirty))

theorem isProtected_stampPermLabels (s : Store) (o oid : Nat) (container : Option Nat) (n : Nat) :
    (s.stampPermLabels p o oid container).isProtected types n = s.isProtected types n := by
  rw [isProtected, info, get_stampPermLabels]
  split
  · rename_i hn
    rw [hn]
    rfl
  · rfl

/-- Register an entity: it gets an OID and, if it is protected, its stamp. -/
def register (types : Types) (p : Principal) (o : Nat) (container : Option Nat) (s : Store) : Store :=
  if s.isProtected types o then (s.adopt o).stampPermLabels p o s.alloc.nextOid container
  else s.adopt o

/-- The steps of a walk, with the stamp as a part of the step. -/
inductive Registers (types : Types) (p : Principal) (s : Store) : Store → Prop
  | register (o : Nat) (container : Option Nat) (hsize : o < s.heap.size)
      (hoid : (s.heap.get o).oid = none) (huid : s.isProtected types o = true → p.uid ≠ 0) :
      Registers types p s (s.register types p o container)

theorem registers_coherent (hstep : Registers types p s t) (h : Coherent kind s) :
    Coherent kind t := by
  cases hstep with
  | register o container hsize hoid huid =>
      have hadopt := grow_coherent (.adopt o hsize hoid huid : Grow types p s _) h
      unfold register
      by_cases hprot : s.isProtected types o = true
      · rw [if_pos hprot]
        have hstamp : Grow types p (s.adopt o)
            ((s.adopt o).stampPermLabels p o s.alloc.nextOid container) :=
          .stamp o _ container (get?_new_adopt s o) ((isProtected_adopt s o o).trans hprot)
        exact grow_coherent hstamp hadopt
      · rw [if_neg hprot]
        exact hadopt

theorem nextOid_registers (hstep : Registers types p s t) : s.alloc.nextOid ≤ t.alloc.nextOid := by
  cases hstep with
  | register o container hsize hoid huid =>
      unfold register
      split <;> exact Nat.le_succ _

/-- Going on from an entity stamps it, if it is fresh and protected. -/
theorem expand_spec {e : Queued} {walked : List Nat} {oid : Nat} {fresh : Bool}
    (hwalked : fresh = true → oid ∉ walked) (hbuf : fresh = true → s.isBuffered oid = true) :
    finalState (expand types p e walked oid fresh s) =
        (if fresh && s.isProtected types e.1 then s.stampPermLabels p e.1 oid e.2 else s) ∧
      ∀ r t, expand types p e walked oid fresh s = .ok r t → r.2 = walked ∨ r.2 = oid :: walked := by
  rw [expand, bind_run_ok (get_run s)]
  by_cases hc : walked.contains oid = true
  -- A fresh entity is not among the walked ones.
  · have hfresh : fresh = false := by
      by_contra hf
      exact hwalked (by simpa using hf) (List.contains_iff_mem.mp hc)
    rw [if_pos hc, hfresh]
    refine ⟨rfl, fun r t h => ?_⟩
    cases h
    exact Or.inl rfl
  · rw [if_neg hc]
    by_cases hb : s.isBuffered oid = true
    · rw [if_pos hb]
      have hstamp : stampIfFresh types p e oid fresh s = .ok ()
          (if fresh && s.isProtected types e.1 then s.stampPermLabels p e.1 oid e.2 else s) := by
        rw [stampIfFresh, bind_run_ok (get_run s)]
        split <;> rfl
      rw [bind_run_ok hstamp, bind_run_ok (get_run _)]
      constructor
      · -- what the entity leads to is only read
        generalize (if fresh && s.isProtected types e.1 then s.stampPermLabels p e.1 oid e.2
          else s) = u
        cases hf : u.fieldEntities types e.1 <;> rfl
      · intro r t h
        rcases bind_ok_iff.mp h with ⟨found, s₂, -, h⟩
        cases h
        exact Or.inr rfl
    -- And it is buffered, so here it is not fresh either.
    · have hfresh : fresh = false := by
        by_contra hf
        exact hb (hbuf (by simpa using hf))
      rw [if_neg hb, hfresh]
      refine ⟨rfl, fun r t h => ?_⟩
      cases h
      exact Or.inr rfl

/-- Walking one entry stamps what it adopts, whether it returns or raises. The OIDs
    walked so far were handed out before, so the fresh one is not among them. -/
theorem registerOne_spec {e : Queued} {walked : List Nat} (hc : Coherent kind s)
    (hw : ∀ k ∈ walked, k < s.alloc.nextOid) : MovesAt (Registers types p) (registerOne types p e walked) s ∧
      ∀ r t, registerOne types p e walked s = .ok r t → ∀ k ∈ r.2, k < t.alloc.nextOid := by
  unfold registerOne MovesAt
  rw [bind_run_ok (get_run s)]
  cases hreq : s.requireStorable e.1 with
  | error err => exact ⟨.refl, fun r t h => nomatch h⟩
  | ok u =>
      rcases (requireStorable_ok_iff s e.1).mp hreq with ⟨hsize, hstate, -⟩
      change Relation.ReflTransGen _ s (finalState ((oidOrAdopt types p e.1 >>= fun oid =>
        expand types p e walked oid (s.heap.get e.1).oid.isNone) s)) ∧
        ∀ r t, (oidOrAdopt types p e.1 >>= fun oid =>
          expand types p e walked oid (s.heap.get e.1).oid.isNone) s = .ok r t → _
      -- Whether the walk notes the OID or not, what it has noted is below the counter.
      have hcons : ∀ {r : List Queued × List Nat} {oid n : Nat}, (∀ k ∈ walked, k < n) → oid < n →
          (r.2 = walked ∨ r.2 = oid :: walked) → ∀ k ∈ r.2, k < n := by
        intro r oid n hwn hn hr k hk
        rcases hr with hr | hr
        · exact hwn k (hr ▸ hk)
        · rw [hr, List.mem_cons] at hk
          exact hk.elim (fun hk => hk ▸ hn) (hwn k)
      cases hoid : (s.heap.get e.1).oid with
      -- An entity with an OID: nothing moves.
      | some k =>
          rw [bind_run_ok (oidOrAdopt_of_some hoid)]
          dsimp only [Option.isNone_some]
          have hspec := @expand_spec types p s e walked k false (fun h => nomatch h)
            (fun h => nomatch h)
          have hsame : finalState (expand types p e walked k false s) = s := hspec.1
          refine ⟨?_, fun r t h => ?_⟩
          · rw [hsame]
          · rw [h] at hsame
            rw [show t = s from hsame]
            exact hcons hw (hc.oid_below hoid hstate) (hspec.2 r t h)
      -- One without: it is registered in a step, unless nobody owns it.
      | none =>
          rw [bind_run, oidOrAdopt_of_none hoid]
          by_cases huid : (s.isProtected types e.1 && p.uid = 0) = true
          · rw [if_pos huid]
            exact ⟨.refl, fun r t h => nomatch h⟩
          · rw [if_neg huid]
            dsimp only [Option.isNone_none]
            have hspec := @expand_spec types p (s.adopt e.1) e walked s.alloc.nextOid true
              (fun _ hk => absurd (hw _ hk) (Nat.lt_irrefl _))
              (fun _ => by simp [isBuffered, Dict.contains, get?_new_adopt])
            have hfinal : finalState (expand types p e walked s.alloc.nextOid true (s.adopt e.1)) =
                s.register types p e.1 e.2 := by
              rw [hspec.1, Bool.true_and, isProtected_adopt]
              rfl
            have hstep : Registers types p s (s.register types p e.1 e.2) :=
              .register e.1 e.2 hsize hoid fun hp hz => huid (by simp [hp, hz])
            refine ⟨hfinal ▸ .single hstep, fun r t h => ?_⟩
            have ht : t = s.register types p e.1 e.2 := by
              rw [h] at hfinal
              exact hfinal
            have hnext : (s.register types p e.1 e.2).alloc.nextOid = s.alloc.nextOid + 1 := by
              unfold register
              split <;> rfl
            rw [ht, hnext]
            exact hcons (fun k hk => Nat.lt_succ_of_lt (hw k hk)) (Nat.lt_succ_self _)
              (hspec.2 r t h)

theorem registers_run_coherent (hrun : Relation.ReflTransGen (Registers types p) s t)
    (h : Coherent kind s) : Coherent kind t :=
  reflTransGen_invariant (I := Coherent kind) (fun _ _ hstep => registers_coherent hstep) hrun h

theorem registerLoop_spec (fuel : Nat) : ∀ {s : Store} {queue : List Queued} {walked : List Nat},
    Coherent kind s → (∀ k ∈ walked, k < s.alloc.nextOid) →
    MovesAt (Registers types p) (registerLoop types p fuel queue walked) s ∧
      ∀ walked' t, registerLoop types p fuel queue walked s = .ok walked' t →
        ∀ k ∈ walked', k < t.alloc.nextOid := by
  induction fuel with
  | zero =>
      intro s queue walked _ hw
      refine ⟨movesAt_pure _ _, fun walked' t h => ?_⟩
      cases h
      exact hw
  | succ fuel ih =>
      intro s queue walked hc hw
      cases queue with
      | nil =>
          refine ⟨movesAt_pure _ _, fun walked' t h => ?_⟩
          cases h
          exact hw
      | cons e queue =>
          have hone := @registerOne_spec types p kind s e walked hc hw
          have hrest := fun r s₁ (hrun : registerOne types p e walked s = .ok r s₁) =>
            @ih s₁ (queue ++ r.1) r.2 (registers_run_coherent (hone.1.of_ok hrun) hc)
              (hone.2 r s₁ hrun)
          refine ⟨movesAt_bind hone.1 fun r s₁ hrun => (hrest r s₁ hrun).1, fun walked' t h => ?_⟩
          rcases bind_ok_iff.mp h with ⟨r, s₁, hrun, h⟩
          exact (hrest r s₁ hrun).2 walked' t h

/-- A walk registers, and stamps what it registers. -/
theorem movesAt_registerGraph (hc : Coherent kind s) (o : Nat) {walked : List Nat}
    (hw : ∀ k ∈ walked, k < s.alloc.nextOid) :
    MovesAt (Registers types p) (registerGraph types p o walked) s ∧
      ∀ walked' t, registerGraph types p o walked s = .ok walked' t →
        ∀ k ∈ walked', k < t.alloc.nextOid :=
  registerLoop_spec _ hc hw

/-- So does the discovery of a commit. -/
theorem movesAt_discoverNewGraphs (hc : Coherent kind s) :
    MovesAt (Registers types p) (discoverNewGraphs types p) s := by
  have hloop : ∀ (os : List Nat) (s : Store) (walked : List Nat), Coherent kind s →
      (∀ k ∈ walked, k < s.alloc.nextOid) → MovesAt (Registers types p)
        (os.foldlM (fun walked o => registerGraph types p o walked) walked) s := by
    intro os
    induction os with
    | nil => exact fun s walked _ _ => movesAt_pure _ _
    | cons o os ih =>
        intro s walked hc hw
        have hone := @movesAt_registerGraph types p kind s hc o walked hw
        refine movesAt_bind hone.1 fun walked₁ s₁ hrun => ih s₁ walked₁ ?_ ?_
        · exact registers_run_coherent (hone.1.of_ok hrun) hc
        · exact hone.2 walked₁ s₁ hrun
  refine movesAt_get_bind (movesAt_bind (hloop _ s [] hc fun k hk => nomatch hk) ?_)
  exact fun _ t _ => movesAt_pure _ t

/-- Registering leaves no protected entity without its entry. -/
theorem registers_recorded (hstep : Registers types p s t) (hc : Coherent kind s)
    (hb : BirthRecorded types s) : BirthRecorded types t := by
  cases hstep with
  | register o container hsize hoid huid =>
      have hca := grow_coherent (.adopt o hsize hoid huid : Grow types p s _) hc
      unfold register
      by_cases hprot : s.isProtected types o = true
      · rw [if_pos hprot]
        intro k n hp hn hnone
        rw [isProtected_stampPermLabels, isProtected_adopt] at hn
        rcases pending_adopt hc hca hp with hold | ⟨rfl, -⟩
        · by_cases hk : k = s.alloc.nextOid
          · rw [hk]
            exact Option.isSome_iff_exists.mpr ⟨_, Dict.get?_set_self _ _ _⟩
          · have hbirth := hb k n hold hn hnone
            rw [← Dict.get?_set_ne s.birthLabels ((s.adopt o).birthBaseline p o container) hk]
              at hbirth
            exact hbirth
        · exact Option.isSome_iff_exists.mpr ⟨_, Dict.get?_set_self _ _ _⟩
      · rw [if_neg hprot]
        intro k n hp hn hnone
        rw [isProtected_adopt] at hn
        rcases pending_adopt hc hca hp with hold | ⟨-, rfl⟩
        · exact hb k n hold hn hnone
        · exact absurd hn hprot

/-- Discovery leaves no entity without its entry. -/
theorem discoverNewGraphs_recorded {u : Unit} (hc : Coherent kind s) (hb : BirthRecorded types s)
    (h : discoverNewGraphs types p s = .ok u t) : BirthRecorded types t :=
  (reflTransGen_invariant (I := fun s => Coherent kind s ∧ BirthRecorded types s)
    (fun _ _ hstep hs => ⟨registers_coherent hstep hs.1, registers_recorded hstep hs.1 hs.2⟩)
    ((movesAt_discoverNewGraphs hc).of_ok h) ⟨hc, hb⟩).2

/-- A new protected record passes the gate with the owner its entry names. -/
theorem gateRecord_owner {k o : Nat} {l : Labels} (hprior : s.priorRecord k = none)
    (hl : s.birthLabels.get? k = some l) (h : gateRecord p s (k, o) = .ok ()) :
    (s.heap.get o).labels.owner = l.owner := by
  rw [gateRecord] at h
  simp only [hprior, bind, Except.bind] at h
  cases hnew : gateNewRecord p s k (s.heap.get o).labels with
  | error d => simp [hnew] at h
  | ok base =>
      rw [gateNewRecord, Dict.getD, hl, Option.getD_some] at hnew
      split at hnew
      · cases hnew
      · by_contra hne
        rw [if_pos hne] at hnew
        cases hnew

/-- The same OID and stamp. -/
def SameStamp (e e' : Entity) : Prop := e'.oid = e.oid ∧ e'.stampedBy = e.stampedBy

/-- A commit that is stored leaves OIDs and stamps alone. -/
theorem sameStamp_finalize (cap : Capture) (s : Store) (n : Nat) :
    SameStamp (s.heap.get n) ((finalState (p3Finalize cap s)).heap.get n) :=
  finalize_heap (fun _ => ⟨rfl, rfl⟩) (fun _ _ _ h h' => ⟨h'.1.trans h.1, h'.2.trans h.2⟩)
    (fun _ => ⟨rfl, rfl⟩) (fun _ _ => ⟨rfl, rfl⟩) cap s n

end Store

namespace World

open Store

variable {kind : Nat → String} {w : World}

theorem step_birthOk (hc : w.Coherent kind) (h : BirthOk w.store) (e : Event) :
    BirthOk (w.step e).store := by
  cases e with
  | closeAndOpen types => exact birthOk_of_empty rfl
  | crashAndOpen types => exact birthOk_of_empty rfl
  | act p op =>
      change BirthOk (finalState (op.run w.types p w.store))
      rcases op.kinds with hop | ⟨fault, rfl⟩ | rfl
      · exact (reflTransGen_invariant (I := fun s => Store.Coherent kind s ∧ BirthOk s)
          (fun _ _ he hi => ⟨edit_coherent he hi.1, prepares_birthOk (Or.inl he) hi.1 hi.2⟩)
          (moves_op w.types p op hop w.store) ⟨hc.store, h⟩).2
      · rw [Op.run, finalState_effect]
        exact commit_birthOk hc.store h fault
      · exact birthOk_of_empty rfl

/-- The side table never lies. -/
theorem run_birthOk (types : Types) (events : List Event) :
    BirthOk ((start types).run events).store := by
  induction events using List.reverseRecOn with
  | nil => exact birthOk_of_empty rfl
  | append_singleton events e ih =>
      rcases run_coherent types events with ⟨kind, hc⟩
      rw [run, List.foldl_append]
      exact step_birthOk hc ih e

end World

open Store

/-- A protected record that a commit makes belongs to the principal that
    registered its entity, if the entries are there. -/
theorem birth_owner (types : Types) (events : List Event) (p : Principal) (op : Op)
    (hp : isRoot p = false)
    (hrecorded : BirthRecorded ((World.start types).run events).types
      ((World.start types).run events).store)
    {k : Nat} {rec : StoredRecord} {c : String}
    (hnone : ((World.start types).run events).store.backend.objects.get? k = none) :
    let w := (World.start types).run events
    let after := (w.step (.act p op)).store
    after.backend.objects.get? k = some rec → after.backend.typenameOf rec.cid = some c →
    (w.types.info c).isProtected = true →
    ∃ o, (after.heap.get o).oid = some k ∧
      (after.heap.get o).stampedBy = some (after.backend.labelsOf rec).owner := by
  intro w after hrec hcls hprot
  rcases World.run_coherent types events with ⟨kind, hw⟩
  rcases World.step_backend w (.act p op) with hsame | ⟨p', s₁, m, out, t, hact, hc, hfinal⟩
  · -- nothing was stored
    have hbefore : after.backend.objects.get? k = none := by rw [← hnone, ← hsame]
    exact absurd (hrec.symm.trans hbefore) (by simp)
  · cases hact
    have h₁ := hc.discovered_coherent hw.store
    have ht := hc.coherent hw.store
    have hback : t.backend = w.store.backend := backend_of_prepares hc.prepares
    have hafter : after.backend = t.backend.apply (t.buildBatch out) := by
      change (World.step _ _).store.backend = _
      rw [hfinal, backend_finalize]
    have hfinalized : Coherent (classed kind t) after := by
      change Coherent _ (World.step _ _).store
      rw [hfinal]
      exact finalize_coherent ht (hc.batchOk hw.store)
    have hrecorded₁ := discoverNewGraphs_recorded hw.store hrecorded hc.discovered
    have hbirth₁ : BirthOk s₁ := (reflTransGen_invariant
      (I := fun s => Store.Coherent kind s ∧ BirthOk s)
      (fun _ _ hg hi => ⟨grow_coherent hg hi.1, grow_birthOk hg hi.1 hi.2⟩) hc.grown
      ⟨hw.store, World.run_birthOk types events⟩).2
    have hkind := Option.some.inj ((hfinalized.storage.shape hrec).2.symm.trans hcls)
    rw [hafter] at hrec
    rcases stored_record ht (hc.batchOk hw.store) hrec with ⟨hold, _⟩ | ⟨o, ho, henc, hshape, _⟩
    · rw [hback] at hold
      exact absurd (hold.symm.trans hnone) (by simp)
    · have hlabels : after.backend.labelsOf rec = decodeLabels (t.info w.types o).fieldNames
          rec.payload := by
        rw [hafter, Backend.labelsOf, hshape]
      have hstamp := sameStamp_finalize (captured w.types s₁ t out)
        (applyBatch (captured w.types s₁ t out).batch (t.settle w.types)) o
      rcases foldl_flipOne w.types t.pending.entries t with
        ⟨hp', r, hflip, _, hget, _⟩
      have hsettled : SameStamp (t.heap.get o) ((applyBatch (captured w.types s₁ t out).batch
          (t.settle w.types)).heap.get o) := by
        have heq : (applyBatch (captured w.types s₁ t out).batch (t.settle w.types)).heap.get o =
            flipped w.types (t.heap.get o) := by
          rw [applyBatch, settle, hflip]
          change hp'.get o = _
          rw [hget, if_pos (List.mem_map.mpr ⟨(k, o), ho, rfl⟩)]
        rw [heq]
        exact ⟨rfl, rfl⟩
      have hend : SameStamp (t.heap.get o) (after.heap.get o) := by
        change SameStamp _ ((World.step _ _).store.heap.get o)
        rw [hfinal]
        exact ⟨hstamp.1.trans hsettled.1, hstamp.2.trans hsettled.2⟩
      have hpending := ht.pending_object ho
      refine ⟨o, hend.1.trans hpending.1, hend.2.trans ?_⟩
      rcases hc.frame with ⟨a, rows, rfl, _⟩
      have hnone₁ : s₁.backend.objects.get? k = none := by
        rw [← hnone]
        exact congrArg (fun b => b.objects.get? k) hback
      -- The class of the record is the one of its entity.
      have hoprot : s₁.isProtected w.types o = true := by
        rw [isProtected, info]
        rcases hpending.2 with ⟨_, hnew⟩ | ⟨hst, _⟩
        · rw [classed_new hnew] at hkind
          rw [hkind]
          exact hprot
        · have hknown := ht.objects.settled o k (Or.inr hst) hpending.1
          rw [classed_below ht hknown.1, ← hknown.2] at hkind
          rw [hkind]
          exact hprot
      rcases Option.isSome_iff_exists.mp (hrecorded₁ k o ho hoprot hnone₁) with ⟨l, hl⟩
      rcases hbirth₁ k l hl with ⟨hle, _, hstamped⟩
      have hprior : s₁.priorRecord k = none := by
        rw [priorRecord, hnone₁]
        exact ite_self _
      have howner := gateRecord_owner hprior hl ((checkWriteGate_ok hc.gate hp).1 (k, o) ho hoprot)
      have hnew : s₁.new.get? k = some o := by
        rcases hpending.2 with ⟨_, hnew⟩ | ⟨hst, _⟩
        · exact hnew
        · exact absurd (h₁.objects.settled o k (Or.inr hst) hpending.1).1 (Nat.not_lt.mpr hle)
      rw [hlabels, decodeLabels_encoded henc hoprot]
      exact (hstamped o hnew).trans (congrArg some howner.symm)

/-- A note is registered. -/
def newNote : List Event :=
  [.act noteOwner (.construct "note" []), .act noteOwner (.store 0)]

/-- A new note belongs to whoever registered it. -/
theorem birth_owner_on_note :
    let after := (((World.start noteTypes).run newNote).step (.act noteOwner (.commit false))).store
    ∃ rec o, after.backend.objects.get? oidBase = some rec ∧ (after.heap.get o).oid = some oidBase ∧
      (after.heap.get o).stampedBy = some (after.backend.labelsOf rec).owner := by
  intro after
  have hnone : (((World.start noteTypes).run newNote).store.backend.objects.get? oidBase).isNone =
      true := by decide +kernel
  have hafter : (after.backend.objects.get? oidBase).map (fun r =>
      after.backend.typenameOf r.cid) = some (some "note") := by decide +kernel
  rcases Option.map_eq_some_iff.mp hafter with ⟨rec, hrec, hcls⟩
  rcases birth_owner noteTypes newNote noteOwner (.commit false) (by decide) (by decide +kernel)
    (Option.isNone_iff_eq_none.mp hnone) hrec hcls (by decide +kernel) with ⟨o, hoid, hstamp⟩
  exact ⟨rec, o, hrec, hoid, hstamp⟩

/-- Storage refuses the new note, and its owner is assigned before the next
    commit. -/
def forgeNote : List Event :=
  newNote ++ [.act noteOwner (.commit true), .act noteOwner (.setLabel 0 (.owner 9))]

/-- The next commit makes a note of another owner than the one that registered
    it. -/
theorem birth_owner_forged :
    let before := ((World.start noteTypes).run forgeNote).store
    let after := (((World.start noteTypes).run forgeNote).step (.act noteOwner (.commit false))).store
    isRoot noteOwner = false ∧ (before.backend.objects.get? oidBase).isNone ∧
      (after.backend.objects.get? oidBase).map (fun rec => (after.backend.labelsOf rec).owner) =
        some 9 ∧
      (after.heap.get 0).oid = some oidBase ∧ (after.heap.get 0).stampedBy = some 5 := by
  decide +kernel

end DataCrystal
