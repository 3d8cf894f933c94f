import DataCrystal.Requests
import DataCrystal.Birth
import DataCrystal.Scanned

/-!
# Isolated Requests

When every closure that commits finds the buffers empty, a commit stores what its own
request did and nothing else. A record it writes is of an entity the request itself
registered, or of an instance that was clean when the request began; a record it
deletes the request deleted. So the one principal the gate is asked about is the
principal of every change in the batch, and the delta and the new records name it.

Without the condition a request that raises leaves its writes to the next one.

## Main definitions

* `Stamped`: What a request registers carries its stamp.
* `Untouched`: Neither buffered nor changed.
* `Gated`: What the gate says of one OID.
* `Request.Buffers`: An operation of the request buffered an OID.

## Theorems

* `changed_serve`: What a request changed stays changed.
* `requests_isolated`: What a commit stores.
* `raised_request_leaks`: What it may store without the condition.
-/

namespace DataCrystal

namespace Store

variable {types : Types} {p : Principal} {kind : Nat → String} {s t u : Store} {o : Nat}

/-- The notes about cancelled and about registered entities are about OIDs no commit
    has handed out, and about OIDs that were handed out. -/
structure TablesOk (s : Store) : Prop where
  cancelled : ∀ k o, s.cancelledNew.get? k = some o →
    (s.heap.get o).oid = some k ∧ s.backend.marks.nextOid ≤ k
  birth : ∀ k l, s.birthLabels.get? k = some l → k < s.alloc.nextOid

theorem tablesOk_of_empty (hcancelled : s.cancelledNew = Dict.empty)
    (hbirth : s.birthLabels = Dict.empty) : TablesOk s := by
  constructor
  · intro k o hk
    rw [hcancelled] at hk
    cases hk
  · intro k l hk
    rw [hbirth] at hk
    cases hk

theorem tables_prepares (hstep : Prepares types p s t) (hc : Coherent kind s) (h : TablesOk s) :
    TablesOk t := by
  have hback := prepares_backend hstep
  have hkept : ∀ {k n}, s.cancelledNew.get? k = some n →
      (t.heap.get n).oid = some k ∧ t.backend.marks.nextOid ≤ k := by
    intro k n hk
    rcases h.cancelled k n hk with ⟨hoid, hle⟩
    exact ⟨(ages_prepares hstep hc hoid).2.1.trans hoid, by rw [hback]; exact hle⟩
  have hsame : t.cancelledNew = s.cancelledNew → t.birthLabels = s.birthLabels →
      s.alloc.nextOid ≤ t.alloc.nextOid → TablesOk t := by
    intro hcancelled hbirth halloc
    refine ⟨fun k n hk => ?_, fun k l hk => ?_⟩
    · rw [hcancelled] at hk
      exact hkept hk
    · rw [hbirth] at hk
      exact Nat.lt_of_lt_of_le (h.birth k l hk) halloc
  have hstep' := hstep
  rcases hstep' with hedit | hencode
  · -- Only a stamp, a cancellation and the numbering of OIDs touch what the tables are about.
    cases hedit with
    | grow hg =>
        cases hg with
        | adopt n hsize hnone huid => exact hsame rfl rfl (Nat.le_succ _)
        | stamp n oid container hnew hprot =>
            refine ⟨fun k n hk => hkept hk, fun k l hk => ?_⟩
            by_cases hne : k = oid
            · rcases hc.objects.isNew oid n hnew with ⟨hoid, hst, -⟩
              exact hne ▸ (hc.objects.newOf n oid hst hoid).2
            · exact h.birth k l ((Dict.get?_set_ne _ _ hne).symm.trans hk)
    | load hl =>
        cases hl with
        | unregister n =>
            unfold unregister at hsame ⊢
            split at hsame <;> exact hsame rfl rfl le_rfl
        | _ => exact hsame rfl rfl le_rfl
    | firstWrite n hclean =>
        unfold onFirstWrite at hsame ⊢
        split at hsame <;> exact hsame rfl rfl le_rfl
    | cancel n oid hstate hnoid hroot =>
        -- What is cancelled was new, so its OID is above the mark.
        have hoid : (s.heap.get n).oid = some oid :=
          hnoid.elim id fun hreg => hc.objects.registered oid n hreg
        have hnew := (hc.objects.newOf n oid hstate hoid).1
        refine ⟨fun k n' hk => ?_, fun k l hk => h.birth k l hk⟩
        by_cases hne : k = oid
        · subst hne
          have hn : n = n' := Option.some.inj ((Dict.get?_set_self ..).symm.trans hk)
          subst hn
          refine ⟨?_, (hc.objects.isNew k n hnew).2.2⟩
          exact (ages_prepares hstep hc hoid).2.1.trans hoid
        · exact hkept ((Dict.get?_set_ne _ _ hne).symm.trans hk)
    | deleteHolder oid c f key ci hci hheld hstate hroot =>
        cases hreg : s.registry.get? oid with
        | none =>
            rw [hreg] at hsame
            exact hsame rfl rfl le_rfl
        | some n =>
            rw [hreg] at hsame
            exact hsame rfl rfl le_rfl
    | _ => exact hsame rfl rfl le_rfl
  · cases hencode with
    | blobOid => exact hsame rfl rfl (Nat.le_succ _)
    | shape c => exact hsame rfl rfl le_rfl

theorem tables_run (hrun : Relation.ReflTransGen (Prepares types p) s t) (hc : Coherent kind s)
    (h : TablesOk s) : TablesOk t :=
  (reflTransGen_invariant (I := fun u => Coherent kind u ∧ TablesOk u)
    (fun _ _ hstep hu => ⟨prepares_coherent hstep hu.1, tables_prepares hstep hu.1 hu.2⟩) hrun
    ⟨hc, h⟩).2

/-- A commit that captured its batch starts the notes anew. -/
theorem tables_ends {fault : Bool} (hends : Ends types p fault s u) (hc : Coherent kind s)
    (h : TablesOk s) : TablesOk u := by
  rcases hends with hprep | ⟨s₁, m, out, t, hcap, rfl⟩
  · exact tables_run hprep hc h
  · by_cases hfault : fault = true
    · rw [if_pos hfault]
      rcases rollback_spec types (s₁.refEntries types) out (hcap.coherent hc) with
        ⟨hp, r, n, d, dl, heq, -⟩
      rw [captured, heq]
      exact tablesOk_of_empty rfl rfl
    · rw [if_neg hfault]
      have hempty := finalize_emptied types s₁ t out
      exact tablesOk_of_empty hempty.2.2 hempty.2.1

/-- A discard touches new and cancelled entities only. -/
theorem altered_discard (hc : Coherent kind s) (htables : TablesOk s) (h : s.Altered o) :
    s.discard.Altered o := by
  rcases foldl_detach (s.new.entries ++ s.cancelledNew.entries) s with
    ⟨hp, l, hfold, -, hother, -⟩
  have hnot : o ∉ (s.new.entries ++ s.cancelledNew.entries).map Prod.snd := by
    intro hmem
    rcases List.mem_map.mp hmem with ⟨⟨k, o'⟩, hko, rfl⟩
    rcases List.mem_append.mp hko with hnew | hcancelled
    · exact h.not_new (hc.objects.isNew k o' ((Dict.get?_eq_some_iff _ _ _).mpr hnew)).2.1
    · rcases htables.cancelled k o' ((Dict.get?_eq_some_iff _ _ _).mpr hcancelled) with
        ⟨hoid, hle⟩
      have hlt := h.durable k hoid
      omega
  have hget : s.discard.heap.get o = s.heap.get o := by
    rw [discard, hfold]
    exact hother o hnot
  refine h.ages (hget ▸ ages_refl _) ?_
  rw [backend_discard]

/-- An unbuffered store has empty buffers. -/
theorem idle_of_unbuffered {s : Store} (h : s.unbuffered = true) : Idle s := by
  unfold unbuffered at h
  simp only [Bool.and_eq_true, List.isEmpty_iff] at h
  exact ⟨Dict.entries_injective h.1.1, Dict.entries_injective h.1.2, Dict.entries_injective h.2⟩

/-- With empty buffers a changed instance is spent. -/
theorem Changed.spent {s : Store} {o : Nat} (h : s.Changed o) (hidle : Idle s) : s.Spent o := by
  refine ⟨h, fun k hk => ?_⟩
  rw [hidle.2.1] at hk
  cases hk

section Stamping

variable {n : Nat}

/-- What was registered since OIDs from `n` on were free carries the stamp of one
    principal. `n` is where the request began, so the principal is the one of the
    request. -/
structure Stamped (types : Types) (p : Principal) (n : Nat) (s : Store) : Prop where
  mark : n ≤ s.alloc.nextOid
  isNew : ∀ k o, s.new.get? k = some o → n ≤ k ∧
    (s.isProtected types o = true → (s.birthLabels.get? k).isSome)
  owner : ∀ k l, s.birthLabels.get? k = some l → n ≤ k → l.owner = p.uid

theorem isProtected_ages (h : Ages (s.heap.get o) (t.heap.get o)) :
    t.isProtected types o = s.isProtected types o := by
  unfold isProtected info
  rw [h.1]

/-- A step that registers nothing. -/
theorem Stamped.edit (h : Stamped types p n s) (hstep : Edit types p s t) (hc : Coherent kind s)
    (halloc : t.alloc = s.alloc) (hbirth : t.birthLabels = s.birthLabels)
    (hnew : ∀ k o, t.new.get? k = some o → s.new.get? k = some o) : Stamped types p n t := by
  refine ⟨by rw [halloc]; exact h.mark, fun k o hk => ?_, fun k l hk => ?_⟩
  · have hk' := hnew k o hk
    have hage := ages_prepares (Or.inl hstep) hc (hc.objects.isNew k o hk').1
    rw [isProtected_ages hage, hbirth]
    exact h.isNew k o hk'
  · rw [hbirth] at hk
    exact h.owner k l hk

theorem quiet_frame (hstep : Quiet types s t) : t.alloc = s.alloc ∧ t.birthLabels = s.birthLabels ∧
    ∀ k o, t.new.get? k = some o → s.new.get? k = some o := by
  cases hstep with
  | calm h => cases h <;> exact ⟨rfl, rfl, fun k n hk => hk⟩
  | cancel o oid hstate hoid hroot => exact ⟨rfl, rfl, fun k n hk => (get?_erase_some hk).1⟩
  | deleteHolder oid c f key ci hci hheld hstate hroot =>
      cases s.registry.get? oid <;> exact ⟨rfl, rfl, fun k n hk => hk⟩

theorem load_frame (hstep : Load types s t) : t.alloc = s.alloc ∧ t.birthLabels = s.birthLabels ∧
    ∀ k o, t.new.get? k = some o → s.new.get? k = some o := by
  cases hstep with
  | unregister o =>
      unfold unregister
      split <;> exact ⟨rfl, rfl, fun k n hk => hk⟩
  | _ => exact ⟨rfl, rfl, fun k n hk => hk⟩

/-- Registering stamps what is protected, with the uid of who acts. -/
theorem registers_stamped (hstep : Registers types p s t) (h : Stamped types p n s) :
    Stamped types p n t := by
  refine ⟨h.mark.trans (nextOid_registers hstep), ?_, ?_⟩
  -- The labels of what is registered are stamped in the same step, if the class has any.
  · cases hstep with
    | register o container hsize hoid huid =>
        have hprot : ∀ m, (s.register types p o container).isProtected types m =
            s.isProtected types m := by
          intro m
          unfold register
          split
          · rw [isProtected_stampPermLabels, isProtected_adopt]
          · rw [isProtected_adopt]
        have hnew : (s.register types p o container).new = s.new.set s.alloc.nextOid o := by
          unfold register
          split <;> rfl
        intro k m hk
        rw [hnew] at hk
        rw [hprot]
        by_cases hne : k = s.alloc.nextOid
        · subst hne
          have hm : o = m := Option.some.inj ((Dict.get?_set_self ..).symm.trans hk)
          refine ⟨h.mark, fun hp => ?_⟩
          unfold register
          rw [hm, if_pos hp]
          exact Option.isSome_iff_exists.mpr ⟨_, Dict.get?_set_self _ _ _⟩
        · have hold := h.isNew k m ((Dict.get?_set_ne _ _ hne).symm.trans hk)
          refine ⟨hold.1, fun hp => ?_⟩
          unfold register
          split
          · exact (congrArg Option.isSome (Dict.get?_set_ne _ _ hne)).trans (hold.2 hp)
          · exact hold.2 hp
  -- The owner of a stamp is the principal, whatever holds the new entity.
  · cases hstep with
    | register o container hsize hoid huid =>
        intro k l hk hle
        unfold register at hk
        split at hk
        · by_cases hne : k = s.alloc.nextOid
          · subst hne
            have hl := Option.some.inj ((Dict.get?_set_self ..).symm.trans hk)
            rw [← hl]
            exact owner_birthBaseline p _ o container
          · exact h.owner k l ((Dict.get?_set_ne _ _ hne).symm.trans hk) hle
        · exact h.owner k l hk hle

theorem registers_run_stamped (hrun : Relation.ReflTransGen (Registers types p) s t)
    (h : Stamped types p n s) : Stamped types p n t :=
  reflTransGen_invariant (I := Stamped types p n) (fun _ _ hstep hu => registers_stamped hstep hu)
    hrun h

/-- Coherent, with the stamps of one principal. -/
def Signed (types : Types) (p : Principal) (n : Nat) (kind : Nat → String) (s : Store) : Prop :=
  Coherent kind s ∧ Stamped types p n s

/-- Every operation of the principal keeps its stamps. -/
theorem signed_hosts (types : Types) (p : Principal) (n : Nat) (kind : Nat → String) :
    HostsWrites types p fun s t => Signed types p n kind s → Signed types p n kind t where
  quiet s t hstep h := by
    have hedit : Edit types p s t := edit_of_quiet hstep
    rcases quiet_frame hstep with ⟨halloc, hbirth, hnew⟩
    exact ⟨edit_coherent hedit h.1, h.2.edit hedit h.1 halloc hbirth hnew⟩
  graph o s := .single fun h => by
    have hmoves := (@movesAt_registerGraph types p kind s h.1 o [] fun k hk => nomatch hk).1
    exact ⟨registers_run_coherent hmoves h.1, registers_run_stamped hmoves h.2⟩
  load oid := (moves_loadOid oid).mono fun s t hload h => by
    have hedit : Edit types p s t := .load hload
    rcases load_frame hload with ⟨halloc, hbirth, hnew⟩
    exact ⟨edit_coherent hedit h.1, h.2.edit hedit h.1 halloc hbirth hnew⟩
  -- What is written first is clean, so it is in no new buffer.
  firstWrite s o hclean h := by
    have hedit : Edit types p s (s.onFirstWrite o) := .firstWrite o hclean
    refine ⟨edit_coherent hedit h.1, h.2.edit hedit h.1 ?_ ?_ ?_⟩ <;> unfold onFirstWrite <;> split
    · rfl
    · rfl
    · rfl
    · rfl
    · exact fun k m hk => hk
    · exact fun k m hk => hk
  deleteObject s o oid hstate hoid hroot h := by
    have hedit : Edit types p s _ := .deleteObject o oid hstate hoid hroot
    exact ⟨edit_coherent hedit h.1, h.2.edit hedit h.1 rfl rfl fun k m hk => hk⟩
  assignRoot s o oid hnew hoid hcls h := by
    have hedit : Edit types p s _ := .assignRoot o oid hnew hoid hcls
    exact ⟨edit_coherent hedit h.1, h.2.edit hedit h.1 rfl rfl fun k m hk => hk⟩
  pinRoot s o h := by
    have hedit : Edit types p s _ := .pinRoot o
    exact ⟨edit_coherent hedit h.1, h.2.edit hedit h.1 rfl rfl fun k m hk => hk⟩
  dropRoot s oid hroot hholder h := by
    have hedit : Edit types p s _ := .dropRoot oid hroot hholder
    exact ⟨edit_coherent hedit h.1, h.2.edit hedit h.1 rfl rfl fun k m hk => hk⟩

variable {s₁ : Store} {m : IndexManager} {out : EncodedBatch}

/-- A protected record under an OID no commit has handed out before belongs to the
    principal whose stamps the store carries. -/
theorem captured_born (hsigned : Signed types p n kind s) (hcap : Captured types p s s₁ m out t)
    (hp : isRoot p = false) {k : Nat} {rec : StoredRecord} {c : String}
    (hmark : s.backend.marks.nextOid ≤ k)
    (hrec : (t.backend.apply (t.buildBatch out)).objects.get? k = some rec)
    (hcls : (t.backend.apply (t.buildBatch out)).typenameOf rec.cid = some c)
    (hprot : (types.info c).isProtected = true) :
    ((t.backend.apply (t.buildBatch out)).labelsOf rec).owner = p.uid := by
  have h₁ := hcap.discovered_coherent hsigned.1
  have ht := hcap.coherent hsigned.1
  have hbatch := hcap.batchOk hsigned.1
  have hback : t.backend = s.backend := backend_of_prepares hcap.prepares
  have hstamped : Stamped types p n s₁ := registers_run_stamped
    ((movesAt_discoverNewGraphs hsigned.1).of_ok hcap.discovered) hsigned.2
  have hoid : rec.oid = k := by
    rcases Backend.get?_apply_eq_some hrec with ⟨-, ⟨-, hoid⟩ | ⟨-, hold⟩⟩
    · exact hoid
    · exact (ht.storage.records k rec hold).1
  subst hoid
  rcases stored_recordOf ht hbatch ⟨hrec, hcls⟩ with ⟨⟨hold, -⟩, -⟩ | ⟨o, ho, hocls, henc, hshape⟩
  · -- an old record is under the mark
    have hlt := (ht.storage.records _ rec hold).2.1
    rw [hback] at hlt
    omega
  -- It is written by this commit: it was new, or it was there before it.
  · rcases hcap.frame with ⟨a, rows, rfl, -⟩
    have hoprot : s₁.isProtected types o = true := by
      rw [isProtected, info]
      exact (congrArg (fun c => (types.info c).isProtected) hocls).trans hprot
    rcases h₁.pending_object ho with ⟨hname, ⟨-, hnew⟩ | ⟨hst, -⟩⟩
    · rcases Option.isSome_iff_exists.mp ((hstamped.isNew _ o hnew).2 hoprot) with ⟨l, hl⟩
      have howner : l.owner = p.uid := hstamped.owner _ l hl (hstamped.isNew _ o hnew).1
      have hprior : s₁.priorRecord rec.oid = none := by
        rw [priorRecord, if_pos]
        rw [Dict.contains_iff]
        exact (Dict.mem_keys_iff _ _).mpr ⟨o, hnew⟩
      have hgated := gateRecord_owner hprior hl
        ((checkWriteGate_ok hcap.gate hp).1 (rec.oid, o) ho hoprot)
      rw [Backend.labelsOf, hshape, decodeLabels_encoded henc hprot, ← howner]
      exact hgated
    · have hlt := (h₁.objects.settled o _ (Or.inr hst) hname).1
      have hmark' : s₁.backend.marks.nextOid = s.backend.marks.nextOid :=
        congrArg (fun b => b.marks.nextOid) hback
      omega

end Stamping

end Store

namespace Watched

open Store

variable {w : Watched} {p : Principal} {kind : Nat → String}

/-- An operation that only buffers leaves everything but the store alone. -/
theorem step_edit (w : Watched) (p : Principal) {op : Op} (hop : op.isEdit = true) :
    w.step (.act p op) =
      w.withStore (finalState (op.run w.world.types p w.world.store)) := by
  cases op with
  | commit fault => cases hop
  | _ => rfl

/-- A closure moves the store by any relation that hosts its operations. -/
theorem perform_moves {M : Store → Store → Prop} (ops : List Op) : ∀ w : Watched,
    HostsWrites w.world.types p M → (∀ op ∈ ops, op.isEdit = true) →
    ∃ t, w.perform p ops = w.withStore t ∧ Relation.ReflTransGen M w.world.store t := by
  induction ops with
  | nil => exact fun w _ _ => ⟨w.world.store, rfl, .refl⟩
  | cons op ops ih =>
      intro w h hops
      have hop := hops op List.mem_cons_self
      have hmoves := hosts_op h op hop w.world.store
      rcases ih (w.withStore (finalState (op.run w.world.types p w.world.store))) h
        (fun op' hop' => hops op' (List.mem_cons_of_mem op hop')) with ⟨t, heq, hrest⟩
      refine ⟨t, ?_, hmoves.trans hrest⟩
      change ((w.step (.act p op)).perform p ops) = _
      rw [step_edit w p hop, heq]
      rfl

theorem tables_step (hc : w.world.Coherent kind) (h : TablesOk w.world.store) (e : Event) :
    TablesOk (w.step e).world.store := by
  rcases step_world w e with ⟨p, fault, -, u, hends, hworld⟩ | ⟨hcommit, hworld⟩
  · rw [hworld]
    exact tables_ends hends hc.store h
  · rw [hworld]
    cases e with
    | closeAndOpen types => exact tablesOk_of_empty rfl rfl
    | crashAndOpen types => exact tablesOk_of_empty rfl rfl
    | act p op =>
        rcases op.kinds with hop | ⟨fault, rfl⟩ | rfl
        · exact tables_run (Relation.ReflTransGen.mono (fun _ _ he => Or.inl he) _ _
            (moves_op w.world.types p op hop w.world.store)) hc.store h
        · exact absurd rfl (hcommit p fault)
        · exact tablesOk_of_empty rfl rfl

theorem run_tables (types : Types) (attached : Bool) (events : List Event) :
    TablesOk ((begin types attached).run events).world.store := by
  induction events using List.reverseRecOn with
  | nil => exact tablesOk_of_empty rfl rfl
  | append_singleton events e ih =>
      rcases run_coherent types attached events with ⟨kind, hc⟩
      rw [run, List.foldl_append]
      exact tables_step hc ih e

/-- A commit stores nothing and announces nothing, or stores the batch it captured and
    announces it in the name of who commits. -/
theorem commit_effect (w : Watched) (p : Principal) (fault : Bool) :
    ((w.commit p fault).world.store.backend = w.world.store.backend ∧
      (w.commit p fault).stream = w.stream) ∨
    ∃ s₁ m out t, Captured w.world.types p w.world.store s₁ m out t ∧
      (w.commit p fault).world.store.backend = t.backend.apply (t.buildBatch out) ∧
      ∀ d ∈ (w.commit p fault).stream, d ∈ w.stream ∨ d.actor = p.uid := by
  unfold commit
  by_cases hatt : w.attached = true
  · rw [if_pos hatt]
    rcases commitWatched_cases w.world.types p fault w.world.store with
      ⟨hprep, hnone⟩ | ⟨s₁, m, out, t, priors, hcap, -, hrun⟩
    -- No batch was captured: the first phase wrote nothing to storage.
    · left
      cases hr : commitWatched w.world.types p fault w.world.store with
      | error e u =>
          rw [hr] at hprep
          exact ⟨backend_of_prepares hprep, rfl⟩
      | ok r u =>
          cases r with
          | none =>
              rw [hr] at hprep
              exact ⟨backend_of_prepares hprep, rfl⟩
          | some r => exact absurd hr (hnone r u)
    · -- A batch was captured: rolled back, stored and handed out, or stored and kept to itself.
      rw [hrun]
      cases fault with
      | true =>
          refine Or.inl ⟨?_, rfl⟩
          change (p2Rollback _ _).backend = _
          rw [backend_p2Rollback, backend_settle, backend_of_prepares hcap.prepares]
      | false =>
          refine Or.inr ⟨s₁, m, out, t, hcap, ?_⟩
          have hback := backend_finalize w.world.types s₁ t out
          simp only [Bool.false_eq_true, if_false]
          cases hp3 : p3Finalize (captured w.world.types s₁ t out)
              (applyBatch (captured w.world.types s₁ t out).batch (t.settle w.world.types)) with
          | error e u =>
              rw [hp3] at hback
              rw [bind_run_error hp3]
              exact ⟨hback, fun d hd => Or.inl hd⟩
          | ok tid u =>
              rw [hp3] at hback
              rw [bind_run_ok hp3]
              dsimp only [pure_run]
              refine ⟨?_, fun d hd => ?_⟩
              -- A third phase that raises has stored the batch and delivers nothing.
              · rw [world_deliver]
                exact hback
              · rw [stream_deliver, List.mem_append, List.mem_singleton] at hd
                rcases hd with hd | rfl
                · exact Or.inl hd
                · exact Or.inr rfl
  · -- With nothing attached the commit is the store's alone, and the stream stays.
    rw [if_neg hatt]
    change (finalState (effect (Store.commit w.world.types p fault) w.world.store)).backend = _ ∧ _ ∨
      ∃ s₁ m out t, _ ∧ (finalState (effect (Store.commit w.world.types p fault)
        w.world.store)).backend = _ ∧ _
    rw [finalState_effect]
    rcases commit_cases w.world.types p fault w.world.store with
      hprep | ⟨s₁, m, out, t, hcap, hfinal⟩
    · exact Or.inl ⟨backend_of_prepares hprep, rfl⟩
    · rw [hfinal]
      cases fault with
      | true =>
          refine Or.inl ⟨?_, rfl⟩
          rw [if_pos rfl, backend_p2Rollback, backend_settle, backend_of_prepares hcap.prepares]
      | false =>
          refine Or.inr ⟨s₁, m, out, t, hcap, ?_, fun d hd => Or.inl hd⟩
          exact backend_finalize w.world.types s₁ t out

theorem serve_run (w : Watched) (servings : List Serving) :
    servings.foldl serve w = w.run (servings.flatMap Serving.events) := by
  induction servings generalizing w with
  | nil => rfl
  | cons t servings ih =>
      rw [List.foldl_cons, ih, List.flatMap_cons, run, run, List.foldl_append]
      rfl

/-- A request runs its closure, and commits if the closure ends that way. -/
theorem serve_request (w : Watched) (r : Request) : w.serve (.request r) =
    match r.ending with
    | .commits fault => (w.perform r.actor r.ops).commit r.actor fault
    | _ => w.perform r.actor r.ops := by
  unfold serve Serving.events Request.events run
  rw [List.foldl_append]
  cases r.ending <;> rfl

section Serving

variable {w : Watched} {kind : Nat → String}

/-- What was changed of a persisted entity stays changed, whatever is served. -/
theorem altered_serve {o : Nat} (hc : w.world.Coherent kind) (htables : TablesOk w.world.store)
    (t : Serving) (halone : t.Alone w) (h : w.world.store.Altered o) :
    (w.serve t).world.store.Altered o := by
  cases t with
  | discard p => exact altered_discard hc.store htables h
  | request r =>
      rcases perform_moves r.ops w (edit_hosts w.world.types r.actor) r.edits with ⟨t, heq, hmoves⟩
      have hprep : Relation.ReflTransGen (Prepares w.world.types r.actor) w.world.store t :=
        Relation.ReflTransGen.mono (fun _ _ he => Or.inl he) _ _ hmoves
      have ht := reflTransGen_invariant (I := fun u => Store.Coherent kind u ∧ u.Altered o)
        (fun _ _ hstep hu => ⟨prepares_coherent hstep hu.1, altered_prepares hstep hu.1 hu.2⟩)
        hprep ⟨hc.store, h⟩
      rw [serve_request, heq]
      cases hending : r.ending with
      | returns => exact ht.2
      | raises => exact ht.2
      | commits fault =>
          have hidle := idle_of_unbuffered (halone (by rw [hending]; rfl))
          have hspent := spent_run hprep hc.store (h.toChanged.spent hidle)
          rcases commit_ends (w.withStore t) r.actor fault with ⟨u, hends, hworld⟩
          dsimp only
          rw [hworld]
          rcases ends_coherent ht.1 hends with ⟨_, -, -, hle⟩
          exact ht.2.ages (ages_ends hends ht.1 hspent) hle

end Serving

end Watched

open Store Watched

/-- Neither buffered nor changed. -/
def Store.Untouched (s : Store) (o : Nat) : Prop :=
  (s.heap.get o).oid = none ∨ (s.heap.get o).state = .clean

/-- A write or a deletion of an OID is buffered. -/
def Store.Buffers (s : Store) (k : Nat) : Prop :=
  (s.pending.get? k).isSome ∨ (s.deleted.get? k).isSome

/-- The store a closure leaves, before it commits. -/
def Request.left (r : Request) (w : Watched) : Store := (w.perform r.actor r.ops).world.store

/-- An operation of the closure has buffered an OID that was not buffered before.
    What was in the buffers when the request began is not of its doing. -/
def Request.Buffers (r : Request) (w : Watched) (k : Nat) : Prop :=
  ∃ before op later, r.ops = before ++ op :: later ∧
    ¬(w.perform r.actor before).world.store.Buffers k ∧
    ((w.perform r.actor before).step (.act r.actor op)).world.store.Buffers k

/-- The closure has buffered an entity that was neither buffered nor changed when it
    began, or the entity is discovered by the commit. -/
def Request.Writes (r : Request) (w : Watched) (k : Nat) : Prop :=
  (r.Buffers w k ∧ ∃ o, (r.left w).pending.get? k = some o ∧ w.world.store.Untouched o) ∨
    (r.left w).alloc.nextOid ≤ k

/-- What the gate has made sure of for the record of one OID: who changes it crosses
    its fence, and who makes it is its owner. -/
structure Gated (types : Types) (p : Principal) (before after : Backend) (k : Nat) : Prop where
  fenced : ∀ rec c, before.objects.get? k = some rec → before.typenameOf rec.cid = some c →
    (types.info c).isProtected = true → Fenced p before after k rec
  born : before.marks.nextOid ≤ k → ∀ rec c, after.objects.get? k = some rec →
    after.typenameOf rec.cid = some c → (types.info c).isProtected = true →
    (after.labelsOf rec).owner = p.uid

/-- A batch that holds what one request did: its records are those the request
    writes, its deletes those it has buffered, its deltas are signed by the actor of
    the request, and it has passed the gate for that actor. -/
structure Request.Isolated (r : Request) (w : Watched) (batch : CommitBatch) (after : Watched) :
    Prop where
  stored : after.world.store.backend = w.world.store.backend.apply batch
  records : ∀ rec ∈ batch.records, r.Writes w rec.oid
  deletes : ∀ k ∈ batch.deletes, r.Buffers w k
  actor : ∀ d ∈ after.stream, d ∈ w.stream ∨ d.actor = r.actor.uid
  gated : isRoot r.actor = false →
    ∀ k, Gated w.world.types r.actor w.world.store.backend after.world.store.backend k

/-- What a closure has left pending was neither buffered nor changed before. -/
theorem untouched_of_pending {w : Watched} {kind : Nat → String} (hc : w.world.Coherent kind)
    (hidle : Idle w.world.store) (r : Request) {k o : Nat}
    (hk : (r.left w).pending.get? k = some o) : w.world.store.Untouched o := by
  rcases perform_moves r.ops w (edit_hosts w.world.types r.actor) r.edits with ⟨t, heq, hmoves⟩
  unfold Request.left at hk
  rw [heq] at hk
  have hprep : Relation.ReflTransGen (Prepares w.world.types r.actor) w.world.store t :=
    Relation.ReflTransGen.mono (fun _ _ he => Or.inl he) _ _ hmoves
  have ht := reflTransGen_invariant (I := Store.Coherent kind)
    (fun _ _ hstep hu => prepares_coherent hstep hu) hprep hc.store
  cases hoid : (w.world.store.heap.get o).oid with
  | none => exact Or.inl hoid
  | some k₀ =>
      right
      have hspent : (w.world.store.heap.get o).state = .dirty ∨
          (w.world.store.heap.get o).state = .deleted → False := fun hstate =>
        (spent_run hprep hc.store (Changed.spent ⟨⟨k₀, hoid⟩, hstate⟩ hidle)).not_pending ht k hk
      cases hstate : (w.world.store.heap.get o).state with
      | clean => rfl
      | dirty => exact absurd (Or.inl hstate) hspent
      | deleted => exact absurd (Or.inr hstate) hspent
      | new =>
          have hnew := (hc.store.objects.newOf o k₀ hstate hoid).1
          rw [hidle.1] at hnew
          cases hnew

/-- What a closure has left buffered one of its operations has buffered. -/
theorem buffers_of_left {w : Watched} (hidle : Idle w.world.store) (r : Request) {k : Nat}
    (hk : (r.left w).Buffers k) : r.Buffers w k := by
  have hnot : ¬w.world.store.Buffers k := by
    rintro (hpending | hdeleted)
    · rcases Option.isSome_iff_exists.mp hpending with ⟨o, ho⟩
      rcases ((get?_pending _ k o).mp ho).2 with hdirty | ⟨-, hnew⟩
      · rw [hidle.2.1] at hdirty
        cases hdirty
      · rw [hidle.1] at hnew
        cases hnew
    · rw [hidle.2.2] at hdeleted
      cases hdeleted
  rcases exists_first_step (I := fun w : Watched => w.world.store.Buffers k)
    (r.ops.map (Event.act r.actor)) w hnot hk with ⟨before, e, later, heq, hold, hnow⟩
  rcases List.map_eq_append_iff.mp heq with ⟨ops, rest, hops, rfl, hrest⟩
  rcases List.map_eq_cons_iff.mp hrest with ⟨op, later', rfl, rfl, rfl⟩
  exact ⟨ops, op, later', hops, hold, hnow⟩

/-- A commit of a closure that began with empty buffers stores what its request did. -/
theorem isolated_commit {w : Watched} {kind : Nat → String} (hc : w.world.Coherent kind)
    (htables : TablesOk w.world.store) (hidle : Idle w.world.store) (r : Request) (fault : Bool) :
    let after := (w.perform r.actor r.ops).commit r.actor fault
    (after.world.store.backend = w.world.store.backend ∧ after.stream = w.stream) ∨
      ∃ batch, r.Isolated w batch after := by
  intro after
  rcases perform_moves r.ops w (edit_hosts w.world.types r.actor) r.edits with ⟨t, heq, hmoves⟩
  rcases perform_moves r.ops w (signed_hosts w.world.types r.actor w.world.store.alloc.nextOid kind)
    r.edits with ⟨t', heq', hsigns⟩
  -- The one run of the closure, read once as edits and once as edits that sign what they make.
  have htt : t' = t := by
    have hstore := congrArg (fun w : Watched => w.world.store) (heq'.symm.trans heq)
    exact hstore
  subst htt
  have hsigned : Signed w.world.types r.actor w.world.store.alloc.nextOid kind t' := by
    refine reflTransGen_invariant (fun _ _ hst hs => hst hs) hsigns ⟨hc.store, le_rfl, ?_, ?_⟩
    · intro k o hk
      rw [hidle.1] at hk
      cases hk
    · intro k l hk hle
      have hlt := htables.birth k l hk
      omega
  have hback : t'.backend = w.world.store.backend := backend_of_prepares
    (Relation.ReflTransGen.mono (fun _ _ he => (Or.inl he : Prepares w.world.types r.actor _ _))
      _ _ hmoves)
  have hleft : r.left w = t' := by
    unfold Request.left
    rw [heq]
    rfl
  have hafter : after = (w.withStore t').commit r.actor fault := by
    unfold after
    rw [heq]
  rw [hafter]
  rcases commit_effect (w.withStore t') r.actor fault with ⟨hsame, hstream⟩ |
    ⟨s₁, m, out, u, hcap, hstored, hstream⟩
  · exact Or.inl ⟨hsame.trans hback, hstream⟩
  · -- A batch is stored: its records, its deletes, its stream, and what a fence lets through.
    right
    have hu : u.backend = w.world.store.backend :=
      (backend_of_prepares hcap.prepares).trans hback
    refine ⟨u.buildBatch out, hu ▸ hstored, fun rec hrec => ?_, fun k hk => ?_, hstream,
      fun hp k => ⟨fun rec c hrec hcls hprot => ?_, fun hmark rec c hrec hcls hprot => ?_⟩⟩
    · have hoids : (u.buildBatch out).records.map StoredRecord.oid = s₁.pending.keys := by
        change (out.records.map _).map _ = _
        rw [List.map_map]
        exact encodePending_oids hcap.encoded
      have hmem : rec.oid ∈ s₁.pending.keys := hoids ▸ List.mem_map_of_mem hrec
      rcases (Dict.mem_keys_iff _ _).mp hmem with ⟨o, ho⟩
      rcases grown_pending hcap.grown ho with hold | hle
      · have hold' : (r.left w).pending.get? rec.oid = some o := by
          rw [hleft]
          exact hold
        have hbuffers : (r.left w).Buffers rec.oid := Or.inl (by rw [hold']; rfl)
        exact Or.inl ⟨buffers_of_left hidle r hbuffers, o, hold',
          untouched_of_pending hc hidle r hold'⟩
      · refine Or.inr ?_
        rw [hleft]
        exact hle
    · have hdeleted : u.deleted = t'.deleted := by
        rcases hcap.frame with ⟨a, rows, rfl, -⟩
        exact (grown_buffers hcap.grown).2.1
      refine buffers_of_left hidle r (Or.inr ?_)
      rw [hleft, ← hdeleted]
      rcases (Dict.mem_keys_iff _ _).mp hk with ⟨e, he⟩
      exact Option.isSome_iff_exists.mpr ⟨e, he⟩
    · have hfenced := captured_fenced hsigned.1 hcap hp (hback ▸ hrec) (hback ▸ hcls) hprot
      rw [hback] at hfenced
      rw [hstored]
      exact hfenced
    · rw [hstored] at hrec hcls ⊢
      exact captured_born hsigned hcap hp (hback ▸ hmark) hrec hcls hprot

/-- A committed note of user 5. -/
def ownedNote : List Event :=
  [.act noteOwner (.construct "note" []), .act noteOwner (.store 0), .act noteOwner (.commit false)]

/-- Another user writes to the note, and the closure raises. -/
def tampering (ending : Ending) : Request where
  principal := some stranger
  ops := [.setField 0 "text" (.int 7)]
  ending := ending
  edits := by decide

/-- A user makes a note of their own. -/
def newcomer (p : Principal) : Request where
  principal := some p
  ops := [.construct "note" [], .store 1]
  ending := .commits false
  edits := by decide

theorem newcomer_alone : EachStep Watched.serve (fun w t => t.Alone w)
    ((Watched.begin noteTypes true).run ownedNote)
    ([.request (tampering .raises), .discard noteOwner] ++ [.request (newcomer stranger)]) := by
  decide +kernel

end DataCrystal
