import DataCrystal.Lockstep

/-!
# Served Deltas

A coordinator serves what its log has taken in: the deltas up to the log's
watermark, in the order of their transactions. A commit that raises in its third
phase is stored and not announced, and from there on the log takes nothing in,
so what is served is always a stream without a gap.

`Served` builds such a stream delta by delta, beside the consumer that has
applied it. `Next` lists what is known of a delta when its turn comes. A replica
relies on nothing else: it never sees the store.

## Main definitions

* `Applier.Next`: The next delta of a stream, to a consumer of all before it.
* `Applier.Served`: A stream and the consumer that has applied it.
* `Watched.accepted`: The deltas the log of a watched store serves.
* `Watched.Behind`: Storage is ahead of the log for good.

## Theorems

* `apply_ok`: What an accepted delta has done to a consumer.
* `run_served`: What a coordinator serves is a stream.
-/

namespace DataCrystal

open Store

namespace Applier

variable {a a' t : Applier} {d : Delta}

/-- A delta whose turn has come. Its operations are those of one batch, its
    shapes are new, and it keeps a root if there was one. The first of all
    brings the shape of its first record along. -/
structure Next (a : Applier) (d : Delta) (a' : Applier) : Prop where
  applied : Applier.apply d a = .ok true a'
  ops : ∃ (prior : Nat → Option Payload) (records : List StoredRecord)
    (deletes : List (Nat × Nat × Payload)),
    d.ops = records.map (upsertOp prior) ++ deletes.map deleteOp
  distinct : (d.types.map Prod.fst).Nodup
  unseen : ∀ row ∈ d.types, a.types.get? row.1 = none
  rooted : a.rootOid ≠ none → d.rootOid ≠ none
  shaped : a.watermark = 0 → d.types ≠ []

/-- A stream and the consumer that has applied it, built delta by delta. The
    induction on it is the one that a replica goes by. -/
inductive Served : List Delta → Applier → Prop
  | start : Served [] {}
  | next {ds : List Delta} {a a' : Applier} {d : Delta} (h : Served ds a) (hd : Next a d a') :
      Served (ds ++ [d]) a'

/-- What an accepted delta has done. -/
theorem apply_ok (h : Applier.apply d a = .ok true a') : checkDeltaHeader d = .ok () ∧
    d.tid = a.watermark + 1 ∧ ∃ t, d.ops.forM applyOp (learn d.types a) = .ok () t ∧
      a' = { t with rootOid := d.rootOid, watermark := d.tid } := by
  unfold Applier.apply at h
  rcases bind_ok_iff.mp h with ⟨_, s₁, hraised, hrun⟩
  rcases ofExcept_ok_iff.mp hraised with ⟨hheader, rfl⟩
  rw [bind_run_ok (get_run _)] at hrun
  split at hrun
  · cases hrun
  · split at hrun
    · cases hrun
    · rename_i hnext
      rw [bind_run_ok (modify_run _ _)] at hrun
      rcases bind_ok_iff.mp hrun with ⟨_, t, hops, hlast⟩
      rw [bind_run_ok (modify_run _ _)] at hlast
      cases hlast
      exact ⟨hheader, not_not.mp hnext, t, hops, rfl⟩

/-- A delta up to the watermark is skipped. -/
theorem apply_skip (hheader : checkDeltaHeader d = .ok ()) (h : d.tid ≤ a.watermark) :
    Applier.apply d a = .ok false a := by
  unfold Applier.apply
  rw [bind_run_ok (ofExcept_run_ok hheader a), bind_run_ok (get_run a), if_pos h]
  rfl

/-- A delta that is not the next one is a gap. -/
theorem apply_gap (hheader : checkDeltaHeader d = .ok ()) (h : a.watermark + 1 < d.tid) :
    Applier.apply d a = .error (.gap a.watermark d.tid) a := by
  have hahead : ¬d.tid ≤ a.watermark := by omega
  have hskips : d.tid ≠ a.watermark + 1 := by omega
  unfold Applier.apply
  rw [bind_run_ok (ofExcept_run_ok hheader a), bind_run_ok (get_run a), if_neg hahead,
    if_pos hskips]
  rfl

/-- The written records of a batch have entered the consumer. -/
theorem forM_upserts_ok (prior : Nat → Option Payload) (records : List StoredRecord) :
    ∀ a : Applier, (records.map (upsertOp prior)).forM applyOp a = .ok () t →
      t = { a with
        objects := records.foldl (fun d rec => d.set rec.oid rec.payload) a.objects } := by
  induction records with
  | nil =>
      intro a h
      cases h
      rfl
  | cons rec records ih =>
      intro a h
      rw [List.map_cons, forM_cons_run] at h
      rcases bind_ok_iff.mp h with ⟨_, a₁, hone, hrest⟩
      have hstep : a₁ = { a with objects := a.objects.set rec.oid rec.payload } := by
        unfold applyOp at hone
        rw [bind_run_ok (get_run a)] at hone
        split at hone
        · cases hone
        · split at hone
          · cases hone
          · cases hone
            rfl
      rw [ih a₁ hrest, hstep]
      rfl

/-- The deletions of a batch have left the consumer. -/
theorem forM_deletes_ok (deletes : List (Nat × Nat × Payload)) :
    ∀ a : Applier, (deletes.map deleteOp).forM applyOp a = .ok () t →
      t = { a with objects := (deletes.map Prod.fst).foldl Dict.erase a.objects } := by
  induction deletes with
  | nil =>
      intro a h
      cases h
      rfl
  | cons e deletes ih =>
      intro a h
      rw [List.map_cons, forM_cons_run] at h
      rcases bind_ok_iff.mp h with ⟨_, a₁, hone, hrest⟩
      have hstep : a₁ = { a with objects := a.objects.erase e.1 } := by
        unfold applyOp at hone
        rw [bind_run_ok (get_run a)] at hone
        split at hone
        · cases hone
        · split at hone
          · cases hone
          · dsimp only [deleteOp] at hone
            cases hheld : a.objects.get? e.1 with
            | none => rw [hheld] at hone; cases hone
            | some payload =>
                rw [hheld] at hone
                cases hone
                rfl
      rw [ih a₁ hrest, hstep]
      rfl

/-- What a delta of one batch has done to a consumer. -/
theorem Next.result (h : Next a d a') : ∃ (prior : Nat → Option Payload)
    (records : List StoredRecord) (deletes : List (Nat × Nat × Payload)),
    d.ops = records.map (upsertOp prior) ++ deletes.map deleteOp ∧
      a' = { learn d.types a with
        objects := (deletes.map Prod.fst).foldl Dict.erase
          (records.foldl (fun d rec => d.set rec.oid rec.payload) a.objects)
        rootOid := d.rootOid, watermark := d.tid } := by
  rcases h.ops with ⟨prior, records, deletes, hops⟩
  rcases (apply_ok h.applied).2.2 with ⟨t, hrun, rfl⟩
  refine ⟨prior, records, deletes, hops, ?_⟩
  rw [hops] at hrun
  rcases forM_append_ok _ hrun with ⟨t₁, hups, hdels⟩
  rw [forM_deletes_ok deletes t₁ hdels, forM_upserts_ok prior records _ hups]
  rfl

theorem Next.tid (h : Next a d a') : d.tid = a.watermark + 1 := (apply_ok h.applied).2.1

theorem Next.header (h : Next a d a') : checkDeltaHeader d = .ok () := (apply_ok h.applied).1

theorem Next.watermark (h : Next a d a') : a'.watermark = d.tid := by
  rcases h.result with ⟨prior, records, deletes, -, rfl⟩
  rfl

variable {ds : List Delta}

/-- A consumer stands at the transaction its stream ends with. -/
theorem Served.watermark (h : Served ds a) : a.watermark = ds.length := by
  induction h with
  | start => rfl
  | next h hd ih =>
      rw [hd.watermark, hd.tid, ih, List.length_append]
      rfl

/-- Replaying a stream gives the consumer beside it. -/
theorem Served.replay (h : Served ds a) : Applier.replay ds {} = .ok () a := by
  induction h with
  | start => rfl
  | next h hd ih => exact Watched.replay_append ih hd.applied

/-- Every delta of a stream has had its turn. -/
theorem Served.mem (h : Served ds a) : ∀ d ∈ ds, ∃ ds₁ ds₂ a₁ a₂,
    ds = ds₁ ++ d :: ds₂ ∧ Served ds₁ a₁ ∧ Next a₁ d a₂ := by
  induction h with
  | start => exact fun d hd => absurd hd List.not_mem_nil
  | @next ds a a' e h hnext ih =>
      intro d hd
      rcases List.mem_append.mp hd with hd | hd
      · rcases ih d hd with ⟨ds₁, ds₂, a₁, a₂, rfl, h₁, hn⟩
        exact ⟨ds₁, ds₂ ++ [e], a₁, a₂, by simp, h₁, hn⟩
      · rw [List.mem_singleton] at hd
        exact ⟨ds, [], a, a', by rw [hd], h, hd ▸ hnext⟩

/-- The first delta of a stream brings a shape along. -/
theorem Served.first (h : Served ds a) : ds = [] ∨ ∃ d ∈ ds, d.types ≠ [] := by
  induction h with
  | start => exact Or.inl rfl
  | @next ds a a' d h hd ih =>
      refine Or.inr ?_
      rcases ih with rfl | ⟨e, he, hshaped⟩
      · exact ⟨d, List.mem_append_right _ List.mem_cons_self, hd.shaped h.watermark⟩
      · exact ⟨e, List.mem_append_left _ he, hshaped⟩

theorem Served.unique (h : Served ds a) (h' : Served ds a') : a = a' := by
  have heq := h.replay.symm.trans h'.replay
  injection heq

/-- The delta of the next transaction is the next delta. -/
theorem Served.next_of_tid {ds₁ : List Delta} {a₁ : Applier} (h : Served ds a)
    (h₁ : Served ds₁ a₁) (hpre : ds₁ <+: ds) (hd : d ∈ ds)
    (htid : d.tid = a₁.watermark + 1) : ∃ a₂, Next a₁ d a₂ ∧ ds₁ ++ [d] <+: ds := by
  rcases h.mem d hd with ⟨ds₂, ds₃, a₂, a₃, hds, h₂, hn⟩
  have hlen : ds₁.length = ds₂.length := by
    rw [← h₁.watermark, ← h₂.watermark]
    have hnext := hn.tid
    omega
  have hpre₂ : ds₂ <+: ds := ⟨d :: ds₃, hds.symm⟩
  have heq : ds₁ = ds₂ :=
    (List.prefix_of_prefix_length_le hpre hpre₂ hlen.le).eq_of_length hlen
  subst heq
  cases h₁.unique h₂
  exact ⟨a₃, hn, ⟨ds₃, by rw [hds]; simp⟩⟩

end Applier

namespace Store

variable {types : Types} {p : Principal} {kind : Nat → String} {s t : Store}

/-- A store whose storage has a root has a root. -/
def RootKept (s : Store) : Prop := s.backend.marks.rootOid ≠ none → s.rootOid ≠ none

theorem RootKept.congr (h : RootKept s) (hb : t.backend = s.backend)
    (hroot : t.rootOid = s.rootOid) : RootKept t := by
  unfold RootKept
  rw [hb, hroot]
  exact h

theorem prepares_rootKept (hstep : Prepares types p s t) (h : RootKept s) : RootKept t := by
  rcases hstep with he | he
  · cases he with
    | grow hg => cases hg <;> exact h.congr rfl rfl
    | load hl =>
        cases hl with
        | shell => exact h.congr rfl rfl
        | fill => exact h.congr rfl rfl
        | unregister o =>
            unfold unregister
            split <;> exact h.congr rfl rfl
    | firstWrite o hstate =>
        unfold onFirstWrite
        split <;> exact h.congr rfl rfl
    | deleteHolder oid c f key ci hci hheld hstate hroot =>
        cases hr : s.registry.get? oid <;> exact h.congr rfl rfl
    | assignRoot o oid hnew hoid hcls =>
        -- The new root is a registered entity.
        intro _
        change (s.heap.get o).oid ≠ none
        rw [hoid]
        exact Option.some_ne_none oid
    | _ => exact h.congr rfl rfl
  · cases he <;> exact h.congr rfl rfl

theorem prepared_rootKept (hrun : Relation.ReflTransGen (Prepares types p) s t)
    (h : RootKept s) : RootKept t :=
  reflTransGen_invariant (I := RootKept) (fun _ _ hst hs => prepares_rootKept hst hs) hrun h

/-- The counter of a store behind the steps of a first phase. -/
theorem nextTid_of_prepares (hrun : Relation.ReflTransGen (Prepares types p) s t) :
    t.alloc.nextTid = s.alloc.nextTid := by
  refine reflTransGen_invariant (I := fun u => u.alloc.nextTid = s.alloc.nextTid)
    (fun u v hst hu => ?_) hrun rfl
  rcases prepares_kinds hst with hsame | ⟨m, -, rfl⟩ | rfl | ⟨c, rfl⟩
  · exact hsame.nextTid.trans hu
  · exact hu
  · exact hu
  · exact hu

/-- A batch that is stored advances the counter, whether or not its third phase
    raises, and takes the root along. -/
theorem finalize_counters (types : Types) (s₁ t : Store) (out : EncodedBatch) :
    let u := finalState (p3Finalize (captured types s₁ t out)
      (applyBatch (captured types s₁ t out).batch (t.settle types)))
    u.alloc.nextTid = t.alloc.nextTid + 1 ∧ u.backend.marks.nextTid = t.alloc.nextTid + 1 ∧
      u.rootOid = t.rootOid ∧ u.backend.marks.rootOid = t.rootOid := by
  intro u
  have hb : u.backend = t.backend.apply (t.buildBatch out) := backend_finalize types s₁ t out
  rw [hb]
  rcases foldl_flipOne types t.pending.entries t with ⟨hp, r, hflip, _⟩
  have hkept : u.alloc.nextTid = t.alloc.nextTid + 1 ∧ u.rootOid = t.rootOid := by
    rcases p3Finalize_final (captured types s₁ t out)
      (applyBatch (captured types s₁ t out).batch (t.settle types)) with ⟨e, herr⟩ | hok
    · have hu : u = _ := congrArg finalState herr
      rw [hu]
      simp only [finalState_error, applyBatch, settle, hflip, and_self]
    · have hu : u = _ := congrArg finalState hok
      rcases finishCommit_frame (captured types s₁ t out)
        { applyBatch (captured types s₁ t out).batch (t.settle types) with
          index := finalState (IndexManager.apply (captured types s₁ t out).indexEntries
            (applyBatch (captured types s₁ t out).batch (t.settle types)).index) } with
        ⟨hp', r', hfinish⟩
      rw [hu, finalState_ok, hfinish]
      simp only [applyBatch, settle, hflip, and_self]
  exact ⟨hkept.1, rfl, hkept.2, rfl⟩

theorem ends_rootKept {fault : Bool} {u : Store} (hends : Ends types p fault s u)
    (hc : Coherent kind s) (h : RootKept s) : RootKept u := by
  rcases hends with hprep | ⟨s₁, m, out, t, hcap, rfl⟩
  · exact prepared_rootKept hprep h
  · have ht := prepared_rootKept hcap.prepares h
    cases fault with
    | true =>
        rcases rollback_spec types (s₁.refEntries types) out (hcap.coherent hc) with
          ⟨_, _, _, _, _, heq, -⟩
        rw [if_pos rfl, captured, heq]
        exact ht.congr rfl rfl
    | false =>
        rw [if_neg (by decide)]
        have hroot := finalize_counters types s₁ t out
        unfold RootKept
        rw [hroot.2.2.1, hroot.2.2.2]
        exact id

/-- The counters of a store and of its storage are above a number. -/
def CountersAbove (n : Nat) (s : Store) : Prop :=
  n < s.alloc.nextTid ∧ n < s.backend.marks.nextTid

/-- A commit never takes a transaction back that storage has. -/
theorem ends_countersAbove {fault : Bool} {u : Store} {n : Nat} (hends : Ends types p fault s u)
    (hc : Coherent kind s) (h : CountersAbove n s) : CountersAbove n u := by
  rcases hends with hprep | ⟨s₁, m, out, t, hcap, rfl⟩
  · unfold CountersAbove
    rw [nextTid_of_prepares hprep, backend_of_prepares hprep]
    exact h
  · have ht : t.alloc.nextTid = s.alloc.nextTid := nextTid_of_prepares hcap.prepares
    cases fault with
    | true =>
        rcases rollback_spec types (s₁.refEntries types) out (hcap.coherent hc) with
          ⟨_, _, _, _, _, heq, -⟩
        rw [if_pos rfl, captured, heq]
        exact ⟨ht ▸ h.1, (backend_of_prepares hcap.prepares).symm ▸ h.2⟩
    | false =>
        have hcounters := finalize_counters types s₁ t out
        have habove := h.1
        rw [if_neg (by decide)]
        exact ⟨by omega, by omega⟩

/-- A store that reads its storage again counts on from there. -/
theorem discard_countersAbove {n : Nat} (h : CountersAbove n s) : CountersAbove n s.discard := by
  have hb := backend_discard s
  constructor
  · change n < s.discard.backend.marks.nextTid
    rw [hb]
    exact h.2
  · rw [hb]
    exact h.2

/-- A batch of a store without shapes brings the shape of its first record
    along. -/
theorem Captured.shaped {s₁ : Store} {m : IndexManager} {out : EncodedBatch}
    (hcap : Captured types p s s₁ m out t) (hc : Coherent kind s)
    {priors : Dict Nat Payload × List (Nat × Nat × Payload)}
    (hpriors : t.readDeltaPriors = .ok priors) (hnone : s.backend.types = []) :
    out.newTypes ≠ [] := by
  have hct := hcap.coherent hc
  have hb : t.backend = s.backend := backend_of_prepares hcap.prepares
  have hunstored : ∀ k, t.backend.objects.get? k = none := by
    intro k
    cases hrec : t.backend.objects.get? k with
    | none => rfl
    | some rec =>
        rcases (hct.storage.records k rec hrec).2.2 with ⟨names, hrow⟩
        rw [hb, hnone] at hrow
        exact absurd hrow List.not_mem_nil
  -- Nothing is stored, so nothing is deleted, and something is written.
  have hkept : t.deleted = s₁.deleted ∧ t.pending = s₁.pending := by
    rcases encodes_encodesTo hcap.encodes with ⟨a, rows, rfl, -⟩
    exact ⟨rfl, rfl⟩
  have hdeleted : t.deleted.entries = [] := by
    rcases readDeltaPriors_deleted hpriors with ⟨hkeys, hheld⟩
    have hempty : priors.2 = [] := by
      refine List.eq_nil_iff_forall_not_mem.mpr fun d hd => ?_
      rcases (hheld d hd).2 with ⟨rec, hrec, -⟩
      rw [hunstored] at hrec
      cases hrec
    rw [hempty] at hkeys
    exact List.map_eq_nil_iff.mp hkeys.symm
  have hpending : t.pending.entries ≠ [] := by
    intro hempty
    have hbusy := hcap.busy
    rw [← hkept.1, ← hkept.2, hdeleted, hempty] at hbusy
    cases hbusy
  have hbatch := hcap.batchOk hc
  have hrecords : out.records ≠ [] := by
    intro hempty
    have hoids := hbatch.oids
    rw [hempty] at hoids
    exact hpending (List.map_eq_nil_iff.mp hoids.symm)
  -- A record is encoded under a durable shape, of which there is none, or a new one.
  rcases List.exists_mem_of_ne_nil _ hrecords with ⟨r, hr⟩
  rcases hbatch.encoded r hr with ⟨o, -, -, -, hdur | ⟨row, hrow, -⟩⟩
  · rcases hct.storage.durable r.2.1 hdur with ⟨row, hrow, -⟩
    rw [hb, hnone] at hrow
    exact absurd hrow List.not_mem_nil
  · exact List.ne_nil_of_mem hrow

/-- The delta of a stored batch is the next one of a consumer that holds what
    storage held. -/
theorem next_delta {s₁ : Store} {m : IndexManager} {out : EncodedBatch}
    (hcap : Captured types p s s₁ m out t) (hc : Coherent kind s) (hs : InStep s)
    (hroot : RootKept s) {priors : Dict Nat Payload × List (Nat × Nat × Payload)}
    (hpriors : t.readDeltaPriors = .ok priors) {a : Applier} (ha : a.Mirrors s.backend)
    (hwm : a.watermark + 1 = t.alloc.nextTid) (hfirst : a.watermark = 0 → a.types = Dict.empty) :
    ∃ a', Applier.Next a (t.deltaOf p out priors) a' ∧
      a'.Mirrors (t.backend.apply (t.buildBatch out)) ∧ a'.watermark = t.alloc.nextTid := by
  have hb : t.backend = s.backend := backend_of_prepares hcap.prepares
  have ht := prepared_inStep hcap.prepares hc hs
  have hkept := prepared_rootKept hcap.prepares hroot
  have hnew := hcap.newShapes
  rcases apply_delta (p := p) (hcap.coherent hc) ht (hcap.batchOk hc) hnew hpriors (hb ▸ ha) hwm
    with ⟨a', happly, hmirrors, htid⟩
  have hunseen : ∀ row ∈ out.newTypes, a.types.get? row.1 = none := by
    intro row hrow
    by_contra hseen
    rcases Option.ne_none_iff_exists'.mp hseen with ⟨v, hv⟩
    have hstored := (ha.types row.1 v).mp hv
    exact hnew.2 row hrow (ht.durable (row.1, v) (hb.symm ▸ hstored))
  have hrooted : a.rootOid ≠ none → t.rootOid ≠ none := by
    rw [ha.rootOid, ← hb]
    exact hkept
  have hshaped : a.watermark = 0 → out.newTypes ≠ [] := by
    intro hzero
    refine hcap.shaped hc hpriors (List.eq_nil_iff_forall_not_mem.mpr fun row hrow => ?_)
    have hget := (ha.types row.1 row.2).mpr hrow
    rw [hfirst hzero] at hget
    cases hget
  exact ⟨a', ⟨happly, ⟨priors.1.get?, (t.buildBatch out).records, priors.2, rfl⟩, hnew.1, hunseen,
    hrooted, hshaped⟩, hmirrors, htid⟩

end Store

namespace Watched

variable {kind : Nat → String} {w : Watched}

/-- The deltas the log of a watched store serves. -/
def accepted (w : Watched) : List Delta := w.stream.take w.consumer.watermark

/-- Storage and its counter are more than one transaction ahead of the log, so
    the delta of every further commit is a gap. -/
def Behind (w : Watched) : Prop := w.world.store.CountersAbove (w.consumer.watermark + 1)

/-- A watched store whose log serves a stream: what the consumer has accepted is
    what is handed out, and the store is level with it or has stored a batch that
    was never delivered. -/
structure Serves (w : Watched) : Prop where
  served : Applier.Served w.accepted w.consumer
  reached : w.consumer.watermark ≤ w.stream.length
  rootKept : w.world.store.RootKept
  state : w.Lockstep ∨ w.Behind

/-- A consumer in lock step has taken in all there is. -/
theorem Lockstep.length (h : w.Lockstep) : w.stream.length = w.consumer.watermark := by
  have hlen := congrArg List.length h.tids
  rw [List.length_map, List.length_range'] at hlen
  rw [hlen, h.watermark]

theorem Serves.idle (h : w.Serves) {w' : Watched} (hcons : w'.consumer = w.consumer)
    (hstream : w'.stream = w.stream) (hroot : w'.world.store.RootKept)
    (hstate : w'.Lockstep ∨ w'.Behind) : w'.Serves := by
  refine ⟨?_, by rw [hcons, hstream]; exact h.reached, hroot, hstate⟩
  unfold accepted
  rw [hcons, hstream]
  exact h.served

/-- A delta that skips one is refused, and the log serves what it served. -/
theorem deliver_gap (hreach : w.consumer.watermark ≤ w.stream.length) {d : Delta}
    (hheader : checkDeltaHeader d = .ok ()) (hgap : w.consumer.watermark + 1 < d.tid) :
    (w.deliver d).consumer = w.consumer ∧ (w.deliver d).accepted = w.accepted ∧
      (w.deliver d).consumer.watermark ≤ (w.deliver d).stream.length := by
  unfold deliver
  rw [Applier.apply_gap hheader hgap]
  refine ⟨rfl, List.take_append_of_le_length hreach, ?_⟩
  rw [List.length_append]
  exact Nat.le_add_right_of_le hreach

/-- A commit of an attached store that is in lock step. -/
theorem commit_serves {p : Principal} {fault : Bool} (hc : w.world.Coherent kind)
    (h : w.Serves) (hlock : w.Lockstep) : (w.commit p fault).Serves := by
  have hroot : (w.commit p fault).world.store.RootKept := by
    rcases commit_ends w p fault with ⟨u, hends, heq⟩
    rw [heq]
    exact ends_rootKept hends hc.store h.rootKept
  rcases commit_outcome w p fault hlock.attached with ⟨heq, hends⟩ |
    ⟨s₁, m, out, t, priors, rfl, hcap, hpriors, hrun⟩
  · -- nothing is stored, and nothing is sent
    refine h.idle (by rw [heq]; rfl) (by rw [heq]; rfl) hroot (Or.inl ?_)
    rw [heq]
    exact hlock.idle (refused_inStep hends hc.store hlock.inStep) (refused_backend hends) rfl rfl
      hlock.attached
  · have hwm : w.consumer.watermark + 1 = t.alloc.nextTid := by
      have hlast := hlock.inStep.lastTid
      rw [nextTid_of_prepares hcap.prepares, hlock.inStep.nextTid, hlock.watermark, hlast]
    rcases hrun with ⟨tid, u, hp3, hcommit⟩ | ⟨e, u, hp3, hcommit⟩
    · have hfirst : w.consumer.watermark = 0 → w.consumer.types = Dict.empty := by
        intro hzero
        have hempty : w.consumer = {} := by
          have hserved := h.served
          unfold accepted at hserved
          rw [hzero, List.take_zero] at hserved
          exact hserved.unique .start
        rw [hempty]
      rcases next_delta (p := p) hcap hc.store hlock.inStep h.rootKept hpriors hlock.mirrors hwm
        hfirst with ⟨a, hnext, hmirrors, htid⟩
      have hw : (w.withStore u).consumer = w.consumer := rfl
      have hdeliver := hcommit.trans (deliver_ok (hw ▸ hnext.applied) hnext.watermark)
      have hinstep := prepared_inStep hcap.prepares hc.store hlock.inStep
      have hstore : u.InStep ∧ u.lastTid = t.alloc.nextTid ∧
          u.backend = t.backend.apply (t.buildBatch out) := by
        refine ⟨finalize_inStep hinstep hcap.newShapes hp3, ?_, ?_⟩
        · rcases p3Finalize_ok hp3 with ⟨m', hp, r, pl, -, -, rfl⟩
          rfl
        · rcases p3Finalize_ok hp3 with ⟨m', hp, r, pl, -, -, rfl⟩
          rfl
      -- In lockstep the stream is as long as what was accepted of it.
      have hlen : w.stream.length = w.consumer.watermark := hlock.length
      have hall : w.accepted = w.stream := by
        unfold accepted
        exact List.take_of_length_le hlen.le
      rw [hdeliver] at hroot ⊢
      refine ⟨?_, ?_, hroot, Or.inl ⟨hstore.1, rfl, ?_, ?_, ?_, ?_⟩⟩
      · -- the log takes the delta in behind all the others
        unfold accepted
        rw [htid, ← hwm, ← hlen]
        change Applier.Served ((w.stream ++ [t.deltaOf p out priors]).take (w.stream.length + 1)) a
        rw [List.take_of_length_le (by rw [List.length_append, List.length_singleton])]
        exact .next (hall ▸ h.served) hnext
      · change a.watermark ≤ (w.stream ++ [_]).length
        rw [htid, ← hwm, List.length_append, hlen, List.length_singleton]
      · change a.watermark = u.lastTid
        rw [htid, hstore.2.1]
      · change a.Mirrors u.backend
        rw [hstore.2.2]
        exact hmirrors
      · exact replay_append hlock.replayed hnext.applied
      · change (w.stream ++ [t.deltaOf p out priors]).map Delta.tid = List.range' 1 u.lastTid
        rw [List.map_append, hlock.tids, hstore.2.1, ← hwm, hlock.watermark, List.range'_1_concat]
        change _ ++ [t.alloc.nextTid] = _
        rw [← hwm, hlock.watermark, Nat.add_comm]
    · -- the batch is stored and its delta is lost
      have hcounters := finalize_counters w.world.types s₁ t out
      have hu : finalState (p3Finalize (captured w.world.types s₁ t out)
          (applyBatch (captured w.world.types s₁ t out).batch (t.settle w.world.types))) = u := by
        rw [hp3]
        rfl
      rw [hu] at hcounters
      refine h.idle (by rw [hcommit]; rfl) (by rw [hcommit]; rfl) hroot (Or.inr ?_)
      rw [hcommit]
      constructor
      · change w.consumer.watermark + 1 < u.alloc.nextTid
        omega
      · change w.consumer.watermark + 1 < u.backend.marks.nextTid
        omega

/-- No event takes a transaction back that storage has. -/
theorem step_countersAbove {e : Event} {n : Nat} (he : ∀ p fault, e ≠ .act p (.commit fault))
    (h : w.world.store.CountersAbove n) : (w.world.step e).store.CountersAbove n := by
  cases e with
  | closeAndOpen types => exact ⟨h.2, h.2⟩
  | crashAndOpen types => exact ⟨h.2, h.2⟩
  | act p op =>
      rcases op.kinds with hop | ⟨fault, rfl⟩ | rfl
      · have hprep := Relation.ReflTransGen.mono
          (fun _ _ he => (Or.inl he : Prepares w.world.types p _ _)) _ _
          (moves_op w.world.types p op hop w.world.store)
        change CountersAbove n (finalState (op.run w.world.types p w.world.store))
        unfold CountersAbove
        rw [nextTid_of_prepares hprep, backend_of_prepares hprep]
        exact h
      · exact absurd rfl (he p fault)
      · exact discard_countersAbove h

theorem step_rootKept {e : Event} (he : ∀ p fault, e ≠ .act p (.commit fault))
    (h : w.world.store.RootKept) : (w.world.step e).store.RootKept := by
  cases e with
  | closeAndOpen types => exact id
  | crashAndOpen types => exact id
  | act p op =>
      rcases op.kinds with hop | ⟨fault, rfl⟩ | rfl
      · exact prepared_rootKept (Relation.ReflTransGen.mono
          (fun _ _ he => (Or.inl he : Prepares w.world.types p _ _)) _ _
          (moves_op w.world.types p op hop w.world.store)) h
      · exact absurd rfl (he p fault)
      · intro hroot
        change w.world.store.discard.backend.marks.rootOid ≠ none at hroot
        exact hroot

/-- What a commit of a store whose log is behind leaves of the log: its delta is
    a gap. -/
theorem commit_frame (p : Principal) (fault : Bool) (h : w.Serves) (hb : w.Behind) :
    (w.commit p fault).consumer = w.consumer ∧ (w.commit p fault).accepted = w.accepted ∧
      (w.commit p fault).consumer.watermark ≤ (w.commit p fault).stream.length := by
  have hsame : ∀ w' : Watched, w'.consumer = w.consumer → w'.stream = w.stream →
      w'.consumer = w.consumer ∧ w'.accepted = w.accepted ∧
        w'.consumer.watermark ≤ w'.stream.length := by
    intro w' hcons hstream
    unfold accepted
    rw [hcons, hstream]
    exact ⟨rfl, rfl, h.reached⟩
  by_cases hatt : w.attached = true
  · rcases commit_outcome w p fault hatt with ⟨heq, -⟩ |
      ⟨s₁, m, out, t, priors, rfl, hcap, -, ⟨tid, u, -, hcommit⟩ | ⟨e, u, -, hcommit⟩⟩
    · exact hsame _ (by rw [heq]; rfl) (by rw [heq]; rfl)
    · -- the log refuses the delta
      have hgap : w.consumer.watermark + 1 < (t.deltaOf p out priors).tid := by
        change _ < t.alloc.nextTid
        rw [nextTid_of_prepares hcap.prepares]
        exact hb.1
      rw [hcommit]
      exact deliver_gap (w := w.withStore u) h.reached rfl hgap
    · exact hsame _ (by rw [hcommit]; rfl) (by rw [hcommit]; rfl)
  · have heq : w.commit p fault = { w with world := w.world.step (.act p (.commit fault)) } := by
      unfold commit
      rw [if_neg hatt]
    exact hsame _ (by rw [heq]) (by rw [heq])

/-- A log that is behind stays behind. -/
theorem commit_behind {p : Principal} {fault : Bool} (hc : w.world.Coherent kind)
    (h : w.Serves) (hb : w.Behind) : (w.commit p fault).Behind := by
  rcases commit_ends w p fault with ⟨u, hends, heq⟩
  unfold Behind
  rw [heq, (commit_frame p fault h hb).1]
  exact ends_countersAbove hends hc.store hb

/-- A commit of a store whose log is behind is not announced. -/
theorem commit_serves_behind {p : Principal} {fault : Bool} (hc : w.world.Coherent kind)
    (h : w.Serves) (hb : w.Behind) : (w.commit p fault).Serves := by
  rcases commit_frame p fault h hb with ⟨hcons, haccepted, hreach⟩
  refine ⟨?_, hreach, ?_, Or.inr (commit_behind hc h hb)⟩
  · rw [haccepted, hcons]
    exact h.served
  · rcases commit_ends w p fault with ⟨u, hends, heq⟩
    rw [heq]
    exact ends_rootKept hends hc.store h.rootKept

/-- Events that are not commits leave the log alone. -/
theorem step_log {e : Event} (he : ∀ p fault, e ≠ .act p (.commit fault)) :
    (w.step e).world = w.world.step e ∧ (w.step e).consumer = w.consumer ∧
      (w.step e).stream = w.stream := by
  cases e with
  | closeAndOpen types => exact ⟨rfl, rfl, rfl⟩
  | crashAndOpen types => exact ⟨rfl, rfl, rfl⟩
  | act p op =>
      cases op with
      | commit fault => exact absurd rfl (he p fault)
      | _ => exact ⟨rfl, rfl, rfl⟩

theorem step_behind {e : Event} (hc : w.world.Coherent kind) (h : w.Serves) (hb : w.Behind) :
    (w.step e).Behind := by
  by_cases hcommit : ∃ p fault, e = .act p (.commit fault)
  · rcases hcommit with ⟨p, fault, rfl⟩
    exact commit_behind hc h hb
  · have he : ∀ p fault, e ≠ .act p (.commit fault) := fun p fault heq => hcommit ⟨p, fault, heq⟩
    rcases step_log (w := w) he with ⟨hworld, hcons, -⟩
    unfold Behind
    rw [hcons, hworld]
    exact step_countersAbove he hb

theorem step_serves {e : Event} (hc : w.world.Coherent kind) (h : w.Serves) :
    (w.step e).Serves := by
  by_cases hcommit : ∃ p fault, e = .act p (.commit fault)
  · rcases hcommit with ⟨p, fault, rfl⟩
    rcases h.state with hlock | hb
    · exact commit_serves hc h hlock
    · exact commit_serves_behind hc h hb
  · have he : ∀ p fault, e ≠ .act p (.commit fault) := fun p fault heq => hcommit ⟨p, fault, heq⟩
    rcases step_log (w := w) he with ⟨hworld, hcons, hstream⟩
    refine h.idle hcons hstream (hworld ▸ step_rootKept he h.rootKept) ?_
    rcases h.state with hlock | hb
    · exact Or.inl (step_lockstep hc hlock fun p fault heq => absurd heq (he p fault))
    · exact Or.inr (step_behind hc h hb)

/-- What a coordinator serves, in any run, is a stream. -/
theorem run_served (types : Types) (events : List Event) :
    ((begin types true).run events).Serves := by
  induction events using List.reverseRecOn with
  | nil =>
      exact ⟨.start, le_rfl, id, Or.inl (begin_lockstep types)⟩
  | append_singleton events e ih =>
      rcases run_coherent types true events with ⟨kind, hc⟩
      rw [run, List.foldl_append]
      exact step_serves hc ih

end Watched

end DataCrystal
