import DataCrystal.Families

/-!
# Store and Consumer in Lock Step

The consumer that replays every delta refuses one that skips a transaction, one
that names a shape it has not learnt, and one whose priors are not what it
holds. That it never refuses a delta of the store it is attached to is a fact
about two counters, the shape rows a batch carries and the priors the first
phase reads.

The store keeps its counters and its list of durable shapes in memory, beside
those storage has. `InStep` says that the two agree. It is kept by every
operation and by every commit that completes; a commit that raises in its third
phase leaves storage a transaction ahead.

## Main definitions

* `Store.InStep`: The counters and the shapes agree with storage.
* `Applier.Mirrors`: A consumer holds what storage holds.
* `Watched.Lockstep`: An attached consumer at the store's watermark.

## Theorems

* `ends_inStep`: A commit that completes keeps a store in step.
* `apply_known`, `apply_delta`: The delta of a stored batch is accepted.
* `consumer_in_lockstep`: The consumer reproduces the store.
-/

namespace DataCrystal

open Store

namespace Store

variable {types : Types} {p : Principal} {kind : Nat → String} {s t : Store}

/-- The counters and the shapes of a store agree with its storage: the next
    transaction is the one storage expects, and the last one is the one before it. A
    commit whose third phase raises is the one way out of this. -/
structure InStep (s : Store) : Prop where
  rows : (s.typeRows.map Prod.fst).Nodup
  stored : (s.backend.types.map Prod.fst).Nodup
  durable : ∀ row ∈ s.backend.types, row.1 ∈ s.durableCids
  nextTid : s.alloc.nextTid = s.backend.marks.nextTid
  lastTid : s.lastTid + 1 = s.backend.marks.nextTid

theorem InStep.congr (h : InStep s) (hrows : t.typeRows = s.typeRows)
    (hb : t.backend = s.backend) (hdur : t.durableCids = s.durableCids)
    (hnext : t.alloc.nextTid = s.alloc.nextTid) (hlast : t.lastTid = s.lastTid) : InStep t :=
  ⟨hrows ▸ h.rows, hb ▸ h.stored, by rw [hb, hdur]; exact h.durable,
    by rw [hnext, hb]; exact h.nextTid, by rw [hlast, hb]; exact h.lastTid⟩

theorem prepares_inStep (hstep : Prepares types p s t) (hc : Coherent kind s) (h : InStep s) :
    InStep t := by
  rcases prepares_kinds hstep with hsame | ⟨m, -, rfl⟩ | rfl | ⟨c, rfl⟩
  · exact h.congr hsame.typeRows hsame.backend hsame.durableCids hsame.nextTid hsame.lastTid
  · exact h.congr rfl rfl rfl rfl rfl
  · exact h.congr rfl rfl rfl rfl rfl
  · refine ⟨?_, h.stored, h.durable, h.nextTid, h.lastTid⟩
    -- A new shape takes an id above all there are.
    change ((s.typeRows ++ [_]).map Prod.fst).Nodup
    rw [List.map_append, List.nodup_append]
    refine ⟨h.rows, List.nodup_singleton _, fun a ha b hb hab => ?_⟩
    rcases List.mem_map.mp ha with ⟨row, hrow, rfl⟩
    have hlt := hc.storage.rowsBelow row hrow
    rw [List.map_singleton, List.mem_singleton] at hb
    simp only at hb
    omega

/-- Operations keep a coherent store in step. -/
theorem prepared_inStep (hrun : Relation.ReflTransGen (Prepares types p) s t)
    (hc : Coherent kind s) (h : InStep s) : InStep t := by
  have hboth : Coherent kind t ∧ InStep t :=
    reflTransGen_invariant (I := fun u => Coherent kind u ∧ InStep u)
      (fun _ _ hst hs => ⟨prepares_coherent hst hs.1, prepares_inStep hst hs.1 hs.2⟩) hrun ⟨hc, h⟩
  exact hboth.2

/-- The shapes a batch carries: each once, and none that is durable. A shape that a
    failed commit made is carried by the next one that writes a record of it. -/
def NewShapes (durable : List Nat) (rows : List TypeRow) : Prop :=
  (rows.map Prod.fst).Nodup ∧ ∀ row ∈ rows, row.1 ∉ durable

theorem noteShape_new {rows : List TypeRow} (h : NewShapes s.durableCids rows) (row : TypeRow) :
    NewShapes s.durableCids (s.noteShape row rows) := by
  unfold noteShape
  split
  · exact h
  · rename_i hno
    rw [Bool.or_eq_true, not_or, List.contains_iff_mem, List.any_eq_true] at hno
    constructor
    · rw [List.map_append, List.nodup_append]
      refine ⟨h.1, List.nodup_singleton _, fun a ha b hb hab => ?_⟩
      rcases List.mem_map.mp ha with ⟨r, hr, rfl⟩
      rw [List.map_singleton, List.mem_singleton] at hb
      exact hno.2 ⟨r, hr, decide_eq_true (hab.trans hb)⟩
    · intro r hr
      rcases List.mem_append.mp hr with hr | hr
      · exact h.2 r hr
      · rw [List.mem_singleton] at hr
        exact hr ▸ hno.1

theorem encodeEntity_new {out out' : EncodedBatch} {e : Nat × Nat}
    (h : NewShapes s.durableCids out.newTypes) (hrun : encodeEntity types out e s = .ok out' t) :
    NewShapes t.durableCids out'.newTypes := by
  unfold encodeEntity at hrun
  rw [bind_run_ok (get_run s)] at hrun
  rcases bind_ok_iff.mp hrun with ⟨cid, s₁, hcid, hrun⟩
  rcases bind_ok_iff.mp hrun with ⟨⟨payload, out₁⟩, s₂, hpayload, hrun⟩
  simp only [pure_run, EStateM.Result.ok.injEq] at hrun
  rcases hrun with ⟨rfl, rfl⟩
  have hsteps₁ := encodes_encodesTo ((moves_cidFor _ s).of_ok hcid)
  have hfields : Relation.ReflTransGen (Encodes types) s₁ s₂ :=
    (moves_encodeFields _ _ _ s₁).of_ok hpayload
  rcases encodes_encodesTo hfields with ⟨a₂, rows₂, rfl, -⟩
  rcases hsteps₁ with ⟨a₁, rows₁, rfl, -⟩
  rw [(encodeFields_ok hpayload).2.2]
  exact noteShape_new h _

/-- The shapes a batch brings along are new to storage. -/
theorem encodePending_new {out : EncodedBatch} (entries : List (Nat × Nat)) :
    ∀ {s : Store} {out₀ : EncodedBatch}, NewShapes s.durableCids out₀.newTypes →
      entries.foldlM (encodeEntity types) out₀ s = .ok out t →
      NewShapes t.durableCids out.newTypes := by
  induction entries with
  | nil =>
      intro s out₀ h hrun
      cases hrun
      exact h
  | cons e entries ih =>
      intro s out₀ h hrun
      rcases bind_ok_iff.mp hrun with ⟨out₁, s₁, hone, hrest⟩
      exact ih (encodeEntity_new h hone) hrest

variable {s₁ : Store} {m : IndexManager} {out : EncodedBatch}

theorem Captured.newShapes (hc : Captured types p s s₁ m out t) :
    NewShapes t.durableCids out.newTypes := by
  have hnone : NewShapes ({ s₁ with index := m } : Store).durableCids
      ({} : EncodedBatch).newTypes :=
    ⟨List.nodup_nil, fun row hrow => absurd hrow List.not_mem_nil⟩
  exact encodePending_new _ hnone hc.encoded

/-- The shapes of storage behind a batch are told apart by their ids. -/
theorem stored_types_nodup (h : InStep t) (hnew : NewShapes t.durableCids out.newTypes) :
    ((t.backend.types ++ out.newTypes).map Prod.fst).Nodup := by
  rw [List.map_append, List.nodup_append]
  refine ⟨h.stored, hnew.1, fun a ha b hb hab => ?_⟩
  rcases List.mem_map.mp ha with ⟨row, hrow, rfl⟩
  rcases List.mem_map.mp hb with ⟨row', hrow', rfl⟩
  exact hnew.2 row' hrow' (hab ▸ h.durable row hrow)

/-- A commit that completes keeps a store in step. -/
theorem finalize_inStep {u : Store} {tid : Nat} (h : InStep t)
    (hnew : NewShapes t.durableCids out.newTypes)
    (hrun : p3Finalize (captured types s₁ t out)
      (applyBatch (captured types s₁ t out).batch (t.settle types)) = .ok tid u) : InStep u := by
  rcases p3Finalize_ok hrun with ⟨m, hp, r, pl, -, -, rfl⟩
  refine ⟨h.rows, stored_types_nodup h hnew, fun row hrow => ?_, rfl, rfl⟩
  rcases List.mem_append.mp hrow with hrow | hrow
  · exact List.mem_append_left _ (h.durable row hrow)
  · exact List.mem_append_right _ (List.mem_map_of_mem hrow)

/-- Every commit of a store that captures a batch completes when it is stored: its
    third phase folds the batch into the indexes without an error. -/
def Completes (types : Types) (p : Principal) (s : Store) : Prop :=
  ∀ s₁ m out t, Captured types p s s₁ m out t → ∃ u, p3Finalize (captured types s₁ t out)
    (applyBatch (captured types s₁ t out).batch (t.settle types)) = .ok t.alloc.nextTid u

/-- A commit whose batch is not stored leaves storage alone. -/
theorem refused_backend {u : Store} (hends : Ends types p true s u) : u.backend = s.backend := by
  rcases hends with hprep | ⟨s₁, m, out, t, hcap, rfl⟩
  · exact backend_of_prepares hprep
  · rw [if_pos rfl]
    exact (backend_p2Rollback _ _).trans
      ((backend_settle _ _).trans (backend_of_prepares hcap.prepares))

theorem refused_inStep {u : Store} (hends : Ends types p true s u) (hc : Coherent kind s)
    (h : InStep s) : InStep u := by
  rcases hends with hprep | ⟨s₁, m, out, t, hcap, rfl⟩
  · exact prepared_inStep hprep hc h
  · have ht := prepared_inStep hcap.prepares hc h
    rcases rollback_spec types (s₁.refEntries types) out (hcap.coherent hc) with
      ⟨_, _, _, _, _, heq, -⟩
    rw [if_pos rfl, captured, heq]
    exact ht.congr rfl rfl rfl rfl rfl

theorem ends_inStep {fault : Bool} {u : Store} (hends : Ends types p fault s u)
    (hc : Coherent kind s) (h : InStep s) (hdone : Completes types p s) : InStep u := by
  cases fault with
  | true => exact refused_inStep hends hc h
  | false =>
      rcases hends with hprep | ⟨s₁, m, out, t, hcap, rfl⟩
      · exact prepared_inStep hprep hc h
      · have ht := prepared_inStep hcap.prepares hc h
        rw [if_neg (by decide)]
        rcases hdone s₁ m out t hcap with ⟨u, hrun⟩
        rw [hrun]
        exact finalize_inStep ht hcap.newShapes hrun

/-- A store that has just read its storage is in step with it. -/
theorem loadState_inStep {cacheBlobs : Option (Dict String IndexBlob)}
    {reverseBlob : Option RefEdges} (hstored : (s.backend.types.map Prod.fst).Nodup)
    (hpos : 0 < s.backend.marks.nextTid) : InStep (loadState cacheBlobs reverseBlob s) := by
  refine ⟨hstored, hstored, fun row hrow => List.mem_map_of_mem hrow, rfl, ?_⟩
  change s.backend.marks.nextTid - 1 + 1 = s.backend.marks.nextTid
  omega

theorem InStep.pos (h : InStep s) : 0 < s.backend.marks.nextTid := by
  have hlast := h.lastTid
  omega

theorem discard_inStep (h : InStep s) : InStep s.discard := by
  have hb := backend_discard s
  have hloaded : InStep (loadState none none s.discard) :=
    loadState_inStep (by rw [hb]; exact h.stored) (by rw [hb]; exact h.pos)
  exact hloaded.congr rfl rfl rfl rfl rfl

end Store

/-- The payload of an OID. -/
def Backend.payloadAt (b : Backend) (k : Nat) : Option Payload :=
  (b.objects.get? k).map StoredRecord.payload

namespace Applier

/-- A consumer holds what storage holds: the payload of every record, the shapes and
    the root. What it knows of a record is enough to check the prior of the next
    delta. -/
structure Mirrors (a : Applier) (b : Backend) : Prop where
  objects : ∀ k, a.objects.get? k = b.payloadAt k
  types : ∀ cid v, a.types.get? cid = some v ↔ (cid, v) ∈ b.types
  rootOid : a.rootOid = b.marks.rootOid

variable {a : Applier}

/-- A consumer holds the payloads of storage and knows its shapes. It may know more
    of them, for instance from a delta whose batch was lost. -/
structure Knows (a : Applier) (b : Backend) : Prop where
  objects : ∀ k, a.objects.get? k = b.payloadAt k
  types : ∀ row ∈ b.types, a.types.contains row.1 = true

theorem contains_of_get? {cid : Nat} {v : String × List String} (h : a.types.get? cid = some v) :
    a.types.contains cid = true :=
  (Dict.contains_iff _ _).mpr ((Dict.mem_keys_iff _ _).mpr ⟨v, h⟩)

theorem Mirrors.knows {b : Backend} (h : Mirrors a b) : Knows a b :=
  ⟨h.objects, fun row hrow => contains_of_get? ((h.types row.1 row.2).mpr hrow)⟩

/-- What was known and what is learnt is known. -/
theorem contains_learn {rows : List TypeRow} {cid : Nat} :
    (learn rows a).types.contains cid = true ↔
      a.types.contains cid = true ∨ cid ∈ rows.map Prod.fst := by
  unfold learn
  rw [Dict.contains_iff, Dict.contains_iff, Dict.mem_keys_foldl_set]

/-- One written record. -/
def upsertOp (prior : Nat → Option Payload) (rec : StoredRecord) : DeltaOp :=
  { kind := .upsert, oid := rec.oid, cid := rec.cid, payload := some rec.payload
    prior := prior rec.oid }

/-- One deletion. -/
def deleteOp (d : Nat × Nat × Payload) : DeltaOp :=
  { kind := .delete, oid := d.1, cid := d.2.1, payload := none, prior := some d.2.2 }

theorem applyOp_upsert {op : DeltaOp} {payload : Payload} (hcid : a.types.contains op.cid = true)
    (hprior : op.prior = a.objects.get? op.oid) (hkind : op.kind = .upsert)
    (hpayload : op.payload = some payload) :
    applyOp op a = .ok () { a with objects := a.objects.set op.oid payload } := by
  unfold applyOp
  rw [bind_run_ok (get_run a), if_neg (by simp [hcid]), if_neg (not_not_intro hprior), hkind]
  dsimp only
  rw [hpayload]
  rfl

theorem applyOp_delete {op : DeltaOp} {payload : Payload} (hcid : a.types.contains op.cid = true)
    (hprior : op.prior = a.objects.get? op.oid) (hkind : op.kind = .delete)
    (hheld : a.objects.get? op.oid = some payload) :
    applyOp op a = .ok () { a with objects := a.objects.erase op.oid } := by
  unfold applyOp
  rw [bind_run_ok (get_run a), if_neg (by simp [hcid]), if_neg (not_not_intro hprior), hkind]
  dsimp only
  rw [hheld]
  rfl

/-- The written records of a batch enter a consumer that holds their priors. -/
theorem applyUpserts (prior : Nat → Option Payload) (records : List StoredRecord) :
    ∀ a : Applier, (∀ rec ∈ records, a.types.contains rec.cid = true) →
      (records.map StoredRecord.oid).Nodup →
      (∀ rec ∈ records, prior rec.oid = a.objects.get? rec.oid) →
      (records.map (upsertOp prior)).forM applyOp a = .ok () { a with
        objects := records.foldl (fun d rec => d.set rec.oid rec.payload) a.objects } := by
  induction records with
  | nil => exact fun a _ _ _ => rfl
  | cons rec records ih =>
      intro a hcids hnd hpriors
      rw [List.map_cons, List.nodup_cons] at hnd
      have hstep : applyOp (upsertOp prior rec) a =
          .ok () { a with objects := a.objects.set rec.oid rec.payload } :=
        applyOp_upsert (hcids rec List.mem_cons_self) (hpriors rec List.mem_cons_self) rfl rfl
      rw [List.map_cons, forM_cons_run, bind_run_ok hstep]
      refine ih { a with objects := a.objects.set rec.oid rec.payload }
        (fun r hr => hcids r (List.mem_cons_of_mem rec hr)) hnd.2 fun r hr => ?_
      -- The records of a batch are distinct, so the one just written is another.
      have hne : r.oid ≠ rec.oid := fun hc => hnd.1 (hc ▸ List.mem_map_of_mem hr)
      rw [hpriors r (List.mem_cons_of_mem rec hr)]
      exact (Dict.get?_set_ne _ _ hne).symm

/-- The deletions of a batch, of records the consumer holds. -/
theorem applyDeletes (deletes : List (Nat × Nat × Payload)) :
    ∀ a : Applier, (∀ d ∈ deletes, a.types.contains d.2.1 = true) →
      (deletes.map Prod.fst).Nodup → (∀ d ∈ deletes, a.objects.get? d.1 = some d.2.2) →
      (deletes.map deleteOp).forM applyOp a = .ok () { a with
        objects := (deletes.map Prod.fst).foldl Dict.erase a.objects } := by
  induction deletes with
  | nil => exact fun a _ _ _ => rfl
  | cons d deletes ih =>
      intro a hcids hnd hheld
      rw [List.map_cons, List.nodup_cons] at hnd
      have hstep : applyOp (deleteOp d) a = .ok () { a with objects := a.objects.erase d.1 } :=
        applyOp_delete (hcids d List.mem_cons_self) (hheld d List.mem_cons_self).symm rfl
          (hheld d List.mem_cons_self)
      rw [List.map_cons, forM_cons_run, bind_run_ok hstep]
      refine ih { a with objects := a.objects.erase d.1 }
        (fun e he => hcids e (List.mem_cons_of_mem d he)) hnd.2 fun e he => ?_
      have hne : e.1 ≠ d.1 := fun hc => hnd.1 (hc ▸ List.mem_map_of_mem he)
      exact (Dict.get?_erase_ne _ hne).trans (hheld e (List.mem_cons_of_mem d he))

theorem get?_foldl_erase_payload (ks : List Nat) (k : Nat) : ∀ d : Dict Nat Payload,
    (ks.foldl Dict.erase d).get? k = if k ∈ ks then none else d.get? k := by
  induction ks with
  | nil => exact fun d => rfl
  | cons j ks ih =>
      intro d
      rw [List.foldl_cons, ih, Dict.get?_erase]
      by_cases hk : k ∈ ks
      · simp [hk]
      · by_cases hj : k = j
        · simp [hj]
        · simp [hk, hj]

/-- Writing payloads is writing records, seen through their payloads. -/
theorem get?_foldl_payloads (records : List StoredRecord) (k : Nat) :
    ∀ (d : Dict Nat Payload) (e : Dict Nat StoredRecord),
      d.get? k = (e.get? k).map StoredRecord.payload →
      (records.foldl (fun d rec => d.set rec.oid rec.payload) d).get? k =
        ((records.foldl (fun d rec => d.set rec.oid rec) e).get? k).map StoredRecord.payload := by
  induction records with
  | nil => exact fun d e h => h
  | cons rec records ih =>
      intro d e h
      refine ih _ _ ?_
      rw [Dict.get?_set, Dict.get?_set]
      split
      · rfl
      · exact h

/-- A consumer that has learnt the shapes of a batch. -/
theorem learn_types {b : Backend} (h : Mirrors a b) {rows : List TypeRow}
    (hnd : ((b.types ++ rows).map Prod.fst).Nodup) (cid : Nat) (v : String × List String) :
    (learn rows a).types.get? cid = some v ↔ (cid, v) ∈ b.types ++ rows := by
  rw [List.map_append, List.nodup_append] at hnd
  unfold learn
  by_cases hcid : cid ∈ rows.map Prod.fst
  · rcases List.mem_map.mp hcid with ⟨⟨j, v'⟩, hrow, rfl⟩
    have hget := Dict.get?_foldl_set_of_mem rows j v' hnd.2.1 a.types hrow
    constructor
    · intro hv
      rw [hget, Option.some.injEq] at hv
      rw [← hv]
      exact List.mem_append_right _ hrow
    · intro hv
      rcases List.mem_append.mp hv with hold | hnew
      · -- no shape of storage has the id of a new one
        exact absurd rfl (hnd.2.2 j (List.mem_map_of_mem hold) j (List.mem_map_of_mem hrow))
      · have hpair := List.inj_on_of_nodup_map hnd.2.1 hrow hnew rfl
        rw [hget, (Prod.mk.inj hpair).2]
  · have hget := Dict.get?_foldl_set_of_not_mem rows cid a.types hcid
    rw [hget, h.types, List.mem_append]
    constructor
    · exact Or.inl
    · exact fun hv => hv.resolve_right fun hnew => hcid (List.mem_map_of_mem hnew)

end Applier

namespace Store

variable {types : Types} {p : Principal} {kind : Nat → String} {t : Store} {out : EncodedBatch}

/-- A new OID has no record. -/
theorem Coherent.new_unstored (h : Coherent kind t) {k o : Nat} (hnew : t.new.get? k = some o) :
    t.backend.objects.get? k = none := by
  cases hrec : t.backend.objects.get? k with
  | none => rfl
  | some rec =>
      have hle := (h.objects.isNew k o hnew).2.2
      have hlt := (h.storage.records k rec hrec).2.1
      omega

theorem readPrior_ok {e : Nat × Nat} {r : Nat × Payload} (h : t.readPrior e = .ok r) :
    r.1 = e.1 ∧ t.backend.payloadAt e.1 = some r.2 := by
  unfold readPrior at h
  unfold Backend.payloadAt
  cases hrec : t.backend.objects.get? e.1 with
  | none => rw [hrec] at h; cases h
  | some rec =>
      rw [hrec] at h
      cases h
      exact ⟨rfl, rfl⟩

theorem readTombstone_ok {k : Nat} {d : Nat × Nat × Payload} (h : t.readTombstone k = .ok d) :
    d.1 = k ∧ t.backend.payloadAt k = some d.2.2 ∧
      ∃ rec, t.backend.objects.get? k = some rec ∧ rec.cid = d.2.1 := by
  unfold readTombstone at h
  unfold Backend.payloadAt
  cases hrec : t.backend.objects.get? k with
  | none => rw [hrec] at h; cases h
  | some rec =>
      rw [hrec] at h
      cases h
      exact ⟨rfl, rfl, rec, rfl, rfl⟩

/-- The priors read for a batch are the payloads of the records it writes. -/
theorem readDeltaPriors_written (hc : Coherent kind t)
    {priors : Dict Nat Payload × List (Nat × Nat × Payload)}
    (h : t.readDeltaPriors = .ok priors) {k o : Nat} (hko : (k, o) ∈ t.pending.entries) :
    priors.1.get? k = t.backend.payloadAt k := by
  rcases except_bind_ok_iff.mp h with ⟨ps, hps, h⟩
  rcases except_bind_ok_iff.mp h with ⟨ds, -, h⟩
  cases h
  have hfst : ps.map Prod.fst =
      (t.pending.entries.filter fun e => !t.new.contains e.1).map Prod.fst :=
    except_mapM_map (fun _ _ hone => (readPrior_ok hone).1) hps
  have hnd : (ps.map Prod.fst).Nodup := by
    rw [hfst]
    exact (t.pending.nodup).sublist (List.filter_sublist.map _)
  cases hnew : t.new.get? k with
  | some n =>
      -- The prior of a new entity is not read, and there is none.
      have hno : k ∉ ps.map Prod.fst := by
        rw [hfst, List.mem_map]
        rintro ⟨e, he, rfl⟩
        rw [List.mem_filter, Dict.contains, hnew] at he
        exact Bool.false_ne_true he.2
      have hnone : (Dict.ofList ps).get? k = none := by
        cases hget : (Dict.ofList ps).get? k with
        | none => rfl
        | some v =>
            have hmem := (Dict.get?_ofList_of_nodup ps hnd k v).mp hget
            exact absurd (List.mem_map_of_mem hmem) hno
      rw [hnone, Backend.payloadAt, hc.new_unstored hnew]
      rfl
  | none =>
      have hmem : (k, o) ∈ t.pending.entries.filter fun e => !t.new.contains e.1 := by
        rw [List.mem_filter, Dict.contains, hnew]
        exact ⟨hko, rfl⟩
      rcases except_mapM_mem hps (k, o) hmem with ⟨r, hr, hone⟩
      rcases readPrior_ok hone with ⟨rfl, hpay⟩
      rw [hpay]
      exact (Dict.get?_ofList_of_nodup ps hnd r.1 r.2).mpr hr

/-- The tombstones of a batch are the records it deletes. -/
theorem readDeltaPriors_deleted {priors : Dict Nat Payload × List (Nat × Nat × Payload)}
    (h : t.readDeltaPriors = .ok priors) : priors.2.map Prod.fst = t.deleted.keys ∧
      ∀ d ∈ priors.2, t.backend.payloadAt d.1 = some d.2.2 ∧
        ∃ rec, t.backend.objects.get? d.1 = some rec ∧ rec.cid = d.2.1 := by
  rcases except_bind_ok_iff.mp h with ⟨ps, -, h⟩
  rcases except_bind_ok_iff.mp h with ⟨ds, hds, h⟩
  cases h
  refine ⟨?_, fun d hd => ?_⟩
  · have hmap : ds.map Prod.fst = t.deleted.keys.map id :=
      except_mapM_map (fun _ _ hone => (readTombstone_ok hone).1) hds
    rw [hmap, List.map_id]
  · rcases mem_of_except_mapM hds d hd with ⟨k, -, hone⟩
    rcases readTombstone_ok hone with ⟨rfl, hpay, hrec⟩
    exact ⟨hpay, hrec⟩

/-- A consumer that has applied the delta of a batch. -/
def appliedTo (t : Store) (out : EncodedBatch) (priors : Dict Nat Payload × List (Nat × Nat × Payload))
    (a : Applier) : Applier :=
  { Applier.learn out.newTypes a with
    objects := (priors.2.map Prod.fst).foldl Dict.erase
      ((t.buildBatch out).records.foldl (fun d rec => d.set rec.oid rec.payload) a.objects)
    rootOid := t.rootOid, watermark := t.alloc.nextTid }

/-- The delta of a stored batch is accepted by a consumer that knows what storage
    held, and leaves it holding what storage holds. -/
theorem apply_known (hc : Coherent kind t) (hb : BatchOk types t t.pending.entries t out)
    {priors : Dict Nat Payload × List (Nat × Nat × Payload)}
    (hpriors : t.readDeltaPriors = .ok priors) {a : Applier} (ha : a.Knows t.backend)
    (hwm : a.watermark + 1 = t.alloc.nextTid) :
    Applier.apply (t.deltaOf p out priors) a = .ok true (appliedTo t out priors a) ∧
      (appliedTo t out priors a).Knows (t.backend.apply (t.buildBatch out)) := by
  have hdel := readDeltaPriors_deleted hpriors
  -- What the batch writes, and the consumer that has learnt its shapes.
  have hfst : (t.buildBatch out).records.map StoredRecord.oid =
      t.pending.entries.map fun e => e.1 := by
    rw [← hb.oids]
    unfold buildBatch
    rw [List.map_map]
    rfl
  have hups := Applier.applyUpserts priors.1.get? (t.buildBatch out).records
    (Applier.learn out.newTypes a) (fun rec hrec => ?_) (hfst ▸ t.pending.nodup) fun rec hrec => ?_
  · have hdels := Applier.applyDeletes priors.2
      { Applier.learn out.newTypes a with
        objects := (t.buildBatch out).records.foldl (fun d rec => d.set rec.oid rec.payload)
          (Applier.learn out.newTypes a).objects } (fun d hd => ?_) (by
        rw [hdel.1]
        exact t.deleted.nodup_keys) fun d hd => ?_
    · refine ⟨?_, fun k => ?_, fun row hrow => ?_⟩
      · have hops : (t.deltaOf p out priors).ops.forM Applier.applyOp
            (Applier.learn (t.deltaOf p out priors).types a) = .ok () { Applier.learn out.newTypes a with
              objects := (priors.2.map Prod.fst).foldl Dict.erase
                ((t.buildBatch out).records.foldl (fun d rec => d.set rec.oid rec.payload)
                  a.objects) } := by
          change ((t.buildBatch out).records.map (Applier.upsertOp priors.1.get?) ++
            priors.2.map Applier.deleteOp).forM Applier.applyOp (Applier.learn out.newTypes a) = _
          rw [forM_append_run_ok _ hups, hdels]
          rfl
        have hahead : ¬(t.deltaOf p out priors).tid ≤ a.watermark := by
          change ¬t.alloc.nextTid ≤ a.watermark
          omega
        have hnext : ¬(t.deltaOf p out priors).tid ≠ a.watermark + 1 :=
          not_not_intro hwm.symm
        have hheader : checkDeltaHeader (t.deltaOf p out priors) = .ok () := rfl
        unfold Applier.apply
        rw [bind_run_ok (ofExcept_run_ok hheader a), bind_run_ok (get_run a), if_neg hahead,
          if_neg hnext, bind_run_ok (modify_run _ a), bind_run_ok hops]
        rfl
      · unfold appliedTo
        rw [Applier.get?_foldl_erase_payload, hdel.1]
        change _ = Option.map StoredRecord.payload (Dict.get? (t.deleted.keys.foldl Dict.erase _) k)
        rw [Backend.get?_foldl_erase]
        by_cases hk : k ∈ t.deleted.keys
        · rw [if_pos hk, if_pos hk]
          rfl
        · rw [if_neg hk, if_neg hk]
          exact Applier.get?_foldl_payloads _ k _ _ (ha.objects k)
      · refine Applier.contains_learn.mpr ?_
        rcases List.mem_append.mp (hrow : row ∈ t.backend.types ++ out.newTypes) with hold | hnew
        · exact Or.inl (ha.types row hold)
        · exact Or.inr (List.mem_map_of_mem hnew)
    · -- a record to delete is filed under a shape of storage
      rcases (hdel.2 d hd).2 with ⟨rec, hrec, hcid⟩
      have hrow := ha.types _ (hc.storage.row hrec)
      rw [hcid] at hrow
      exact Applier.contains_learn.mpr (Or.inl hrow)
    · -- and is not written by the same batch
      have hother : d.1 ∉ (t.buildBatch out).records.map StoredRecord.oid := by
        rw [hfst, List.mem_map]
        rintro ⟨⟨k, o⟩, hko, hk⟩
        have hgone := ((get?_pending t k o).mp ((Dict.get?_eq_some_iff _ _ _).mpr hko)).1
        have hmem : d.1 ∈ t.deleted.keys := by
          rw [← hdel.1]
          exact List.mem_map_of_mem hd
        rw [← hk] at hmem
        exact (Dict.not_mem_keys_iff _ _).mpr hgone hmem
      have hkeep : ((t.buildBatch out).records.foldl (fun d rec => d.set rec.oid rec.payload)
          a.objects).get? d.1 = a.objects.get? d.1 := by
        have hfold := Dict.get?_foldl_set_of_not_mem
          ((t.buildBatch out).records.map fun rec => (rec.oid, rec.payload)) d.1 a.objects (by
            rw [List.map_map]
            exact hother)
        rw [List.foldl_map] at hfold
        exact hfold
      exact hkeep.trans ((ha.objects d.1).trans (hdel.2 d hd).1)
  · rcases List.mem_map.mp hrec with ⟨r, hr, rfl⟩
    rcases hb.encoded r hr with ⟨o, -, -, -, hshape⟩
    refine Applier.contains_learn.mpr ?_
    rcases hshape with hdur | ⟨row, hrow, hcid⟩
    · rcases hc.storage.durable r.2.1 hdur with ⟨row, hrow, hcid⟩
      exact Or.inl (hcid ▸ ha.types row hrow)
    · exact Or.inr (List.mem_map.mpr ⟨row, hrow, hcid⟩)
  · have hpend : rec.oid ∈ t.pending.entries.map fun e => e.1 := by
      rw [← hfst]
      exact List.mem_map_of_mem hrec
    rcases List.mem_map.mp hpend with ⟨⟨k, o⟩, hko, hk⟩
    rw [← hk, readDeltaPriors_written hc hpriors hko]
    exact (ha.objects k).symm

/-- A consumer that mirrored storage before mirrors it after. -/
theorem apply_delta (hc : Coherent kind t) (hs : InStep t)
    (hb : BatchOk types t t.pending.entries t out)
    (hnew : NewShapes t.durableCids out.newTypes)
    {priors : Dict Nat Payload × List (Nat × Nat × Payload)}
    (hpriors : t.readDeltaPriors = .ok priors) {a : Applier} (ha : a.Mirrors t.backend)
    (hwm : a.watermark + 1 = t.alloc.nextTid) :
    ∃ a', Applier.apply (t.deltaOf p out priors) a = .ok true a' ∧
      a'.Mirrors (t.backend.apply (t.buildBatch out)) ∧ a'.watermark = t.alloc.nextTid := by
  rcases apply_known (p := p) hc hb hpriors ha.knows hwm with ⟨happly, hknows⟩
  exact ⟨_, happly, ⟨hknows.objects, Applier.learn_types ha (stored_types_nodup hs hnew), rfl⟩, rfl⟩

end Store

/-- A commit of a watched store is refused, or stores a batch; then it announces it
    unless its third phase raises. -/
theorem Store.commitWatched_outcome (types : Types) (p : Principal) (fault : Bool) (s : Store) :
    ((∀ r u, commitWatched types p fault s ≠ .ok (some r) u) ∧
      Ends types p true s (finalState (commitWatched types p fault s))) ∨
      ∃ s₁ m out t priors, fault = false ∧ Captured types p s s₁ m out t ∧
        t.readDeltaPriors = .ok priors ∧
        ((∃ tid u, p3Finalize (captured types s₁ t out)
            (applyBatch (captured types s₁ t out).batch (t.settle types)) = .ok tid u ∧
              commitWatched types p fault s = .ok (some (tid, t.deltaOf p out priors)) u) ∨
          ∃ e u, p3Finalize (captured types s₁ t out)
            (applyBatch (captured types s₁ t out).batch (t.settle types)) = .error e u ∧
              commitWatched types p fault s = .error e u) := by
  rcases commitWatched_cases types p fault s with ⟨hprep, hno⟩ |
    ⟨s₁, m, out, t, priors, hcap, hpriors, hrun⟩
  · exact Or.inl ⟨hno, Or.inl hprep⟩
  · cases fault with
    | true =>
        rw [if_pos rfl] at hrun
        refine Or.inl ⟨fun r u heq => ?_, ?_⟩
        · rw [hrun] at heq
          cases heq
        · rw [hrun]
          exact Or.inr ⟨s₁, m, out, t, hcap, rfl⟩
    | false =>
        rw [if_neg (by decide)] at hrun
        refine Or.inr ⟨s₁, m, out, t, priors, rfl, hcap, hpriors, ?_⟩
        cases hp3 : p3Finalize (captured types s₁ t out)
            (applyBatch (captured types s₁ t out).batch (t.settle types)) with
        | ok tid u =>
            rw [bind_run_ok hp3] at hrun
            exact Or.inl ⟨tid, u, rfl, hrun⟩
        | error e u =>
            rw [bind_run_error hp3] at hrun
            exact Or.inr ⟨e, u, rfl, hrun⟩

/-- Apply a stream of deltas, one after the other. -/
def Applier.replay (stream : List Delta) : EStateM DeltaErr Applier Unit :=
  stream.forM fun d => do
    let _ ← Applier.apply d
    pure ()

namespace Watched

variable {kind : Nat → String} {w : Watched}

/-- An attached consumer that holds what storage holds, made by the stream of
    every transaction so far. -/
structure Lockstep (w : Watched) : Prop where
  inStep : w.world.store.InStep
  attached : w.attached = true
  watermark : w.consumer.watermark = w.world.store.lastTid
  mirrors : w.consumer.Mirrors w.world.store.backend
  replayed : Applier.replay w.stream {} = .ok () w.consumer
  tids : w.stream.map Delta.tid = List.range' 1 w.world.store.lastTid

/-- As long as storage is as it was nothing has to be delivered. -/
theorem Lockstep.idle (h : w.Lockstep) {w' : Watched} (hstore : w'.world.store.InStep)
    (hb : w'.world.store.backend = w.world.store.backend) (hcons : w'.consumer = w.consumer)
    (hstream : w'.stream = w.stream) (hatt : w'.attached = true) : w'.Lockstep := by
  have hlast : w'.world.store.lastTid = w.world.store.lastTid := by
    have hnow := hstore.lastTid
    have hbefore := h.inStep.lastTid
    rw [hb] at hnow
    omega
  exact ⟨hstore, hatt, by rw [hcons, hlast]; exact h.watermark, by rw [hcons, hb]; exact h.mirrors,
    by rw [hcons, hstream]; exact h.replayed, by rw [hstream, hlast]; exact h.tids⟩

/-- A delta that is accepted advances the consumer. -/
theorem deliver_ok {d : Delta} {a : Applier} (happly : Applier.apply d w.consumer = .ok true a)
    (htid : a.watermark = d.tid) :
    w.deliver d = { w with consumer := a, attached := true, stream := w.stream ++ [d] } := by
  unfold deliver
  rw [happly]
  simp [htid]

theorem replay_append {stream : List Delta} {d : Delta} {a a' : Applier} {r : Bool}
    (h : Applier.replay stream {} = .ok () a) (hd : Applier.apply d a = .ok r a') :
    Applier.replay (stream ++ [d]) {} = .ok () a' := by
  unfold Applier.replay at h ⊢
  rw [forM_append_run_ok _ h, forM_cons_run]
  have hone : (do
      let _ ← Applier.apply d
      pure () : EStateM DeltaErr Applier Unit) a = .ok () a' := by
    rw [bind_run_ok hd]
    rfl
  rw [bind_run_ok hone]
  rfl

/-- A commit of an attached store is refused, or stores a batch; then it delivers
    the delta unless its third phase raises. -/
theorem commit_outcome (w : Watched) (p : Principal) (fault : Bool) (hatt : w.attached = true) :
    (w.commit p fault =
        w.withStore (finalState (commitWatched w.world.types p fault w.world.store)) ∧
      Ends w.world.types p true w.world.store
        (finalState (commitWatched w.world.types p fault w.world.store))) ∨
      ∃ s₁ m out t priors, fault = false ∧ Captured w.world.types p w.world.store s₁ m out t ∧
        t.readDeltaPriors = .ok priors ∧
        ((∃ tid u, p3Finalize (captured w.world.types s₁ t out)
            (applyBatch (captured w.world.types s₁ t out).batch (t.settle w.world.types)) =
              .ok tid u ∧ w.commit p fault = (w.withStore u).deliver (t.deltaOf p out priors)) ∨
          ∃ e u, p3Finalize (captured w.world.types s₁ t out)
            (applyBatch (captured w.world.types s₁ t out).batch (t.settle w.world.types)) =
              .error e u ∧ w.commit p fault = w.withStore u) := by
  unfold commit
  rw [if_pos hatt]
  rcases commitWatched_outcome w.world.types p fault w.world.store with ⟨hno, hends⟩ |
    ⟨s₁, m, out, t, priors, hfault, hcap, hpriors, ⟨tid, u, hp3, hrun⟩ | ⟨e, u, hp3, hrun⟩⟩
  · refine Or.inl ⟨?_, hends⟩
    split
    · rename_i heq
      exact absurd heq (hno _ _)
    · rfl
  · refine Or.inr ⟨s₁, m, out, t, priors, hfault, hcap, hpriors, Or.inl ⟨tid, u, hp3, ?_⟩⟩
    rw [hrun]
  · refine Or.inr ⟨s₁, m, out, t, priors, hfault, hcap, hpriors, Or.inr ⟨e, u, hp3, ?_⟩⟩
    rw [hrun]
    rfl

theorem commit_lockstep {p : Principal} {fault : Bool} (hc : w.world.Coherent kind)
    (h : w.Lockstep) (hdone : Completes w.world.types p w.world.store) :
    (w.commit p fault).Lockstep := by
  rcases commit_outcome w p fault h.attached with ⟨heq, hends⟩ |
    ⟨s₁, m, out, t, priors, rfl, hcap, hpriors, hrun⟩
  · rw [heq]
    exact h.idle (refused_inStep hends hc.store h.inStep) (refused_backend hends) rfl rfl
      h.attached
  · have htb : t.backend = w.world.store.backend := backend_of_prepares hcap.prepares
    have hts := prepared_inStep hcap.prepares hc.store h.inStep
    rcases hdone s₁ m out t hcap with ⟨u, hp3⟩
    rcases hrun with ⟨tid, u', hp3', hcommit⟩ | ⟨e, u', hp3', -⟩
    · cases hp3.symm.trans hp3'
      have hwm : w.consumer.watermark + 1 = t.alloc.nextTid := by
        have hlast := h.inStep.lastTid
        rw [h.watermark, hlast, hts.nextTid, htb]
      rcases apply_delta (p := p) (hcap.coherent hc.store) hts (hcap.batchOk hc.store)
        hcap.newShapes hpriors (htb ▸ h.mirrors) hwm with ⟨a, happly, hmirrors, htid⟩
      have hw : (w.withStore u).consumer = w.consumer := rfl
      rw [hcommit, deliver_ok (hw ▸ happly) htid]
      rcases p3Finalize_ok hp3 with ⟨m', hp, r, pl, -, -, rfl⟩
      refine ⟨finalize_inStep hts hcap.newShapes hp3, rfl, htid, hmirrors,
        replay_append h.replayed happly, ?_⟩
      change (w.stream ++ [t.deltaOf p out priors]).map Delta.tid = List.range' 1 t.alloc.nextTid
      rw [List.map_append, h.tids, ← hwm, h.watermark, List.range'_1_concat]
      change _ ++ [t.alloc.nextTid] = _
      rw [← hwm, h.watermark, Nat.add_comm]
    · cases hp3.symm.trans hp3'

theorem step_lockstep {e : Event} (hc : w.world.Coherent kind) (h : w.Lockstep)
    (hdone : ∀ p fault, e = .act p (.commit fault) →
      Completes w.world.types p w.world.store) : (w.step e).Lockstep := by
  -- A session that opens derives everything from storage, and so is level with it.
  have hopen : ∀ types sidecar, ({ w with
      world := World.reopen types sidecar w.world.store.backend }.attach).Lockstep := by
    intro types sidecar
    have hboot : (World.reopen types sidecar w.world.store.backend).store.InStep :=
      loadState_inStep h.inStep.stored h.inStep.pos
    have hlast : (World.reopen types sidecar w.world.store.backend).store.lastTid =
        w.world.store.lastTid := by
      have hnow := hboot.lastTid
      have hbefore := h.inStep.lastTid
      have hb : (World.reopen types sidecar w.world.store.backend).store.backend =
          w.world.store.backend := rfl
      rw [hb] at hnow
      omega
    refine h.idle hboot rfl rfl rfl ?_
    exact decide_eq_true (h.watermark.trans hlast.symm)
  cases e with
  | closeAndOpen types => exact hopen types w.world.closed
  | crashAndOpen types => exact hopen types w.world.sidecar
  | act p op =>
      -- An edit, a commit or a discard.
      rcases op.kinds with hop | ⟨fault, rfl⟩ | rfl
      · have hmoves := moves_op w.world.types p op hop w.world.store
        have hprep := Relation.ReflTransGen.mono
          (fun _ _ he => (Or.inl he : Prepares w.world.types p _ _)) _ _ hmoves
        have hworld : (w.step (.act p op)) =
            { w with world := w.world.step (.act p op) } := by
          cases op with
          | commit => cases hop
          | _ => rfl
        rw [hworld]
        exact h.idle (prepared_inStep hprep hc.store h.inStep) (backend_of_prepares hprep) rfl rfl
          h.attached
      · exact commit_lockstep hc h (hdone p fault rfl)
      · exact h.idle (discard_inStep h.inStep) (backend_discard w.world.store) rfl rfl h.attached

theorem begin_lockstep (types : Types) : (begin types true).Lockstep := by
  have hnone : ∀ k, ((begin types true).world.store.backend.payloadAt k) = none := by
    intro k
    rfl
  refine ⟨loadState_inStep List.nodup_nil Nat.one_pos, rfl, rfl, ⟨fun k => ?_, fun cid v => ?_, rfl⟩,
    rfl, rfl⟩
  · rw [hnone]
    rfl
  · constructor
    · exact fun hv => nomatch hv
    · exact fun hv => nomatch hv

/-- A commit of a tidy store completes if its batch keeps to the kinds. -/
theorem completes_of_keeps {kin : String → String → Kin} {p : Principal} {fault : Bool}
    (hc : w.world.Coherent kind) (h : w.world.Tidy kin)
    (hcond : KeepsKinds kin w (.act p (.commit fault))) :
    Completes w.world.types p w.world.store := by
  intro s₁ m out t hcap
  rcases p3Finalize_completes (hcap.coherent hc.store) (hcap.batchOk hc.store)
    (prepared_tidy hcap.prepares hc.store h.store)
    (hcap.buffers (hcond s₁ hcap.discovered)) s₁ with ⟨u, hrun, -⟩
  exact ⟨u, hrun⟩

theorem run_lockstep (kin : String → String → Kin) (types : Types) (events : List Event)
    (hrun : EachStep step (KeepsKinds kin) (begin types true) events) :
    ((begin types true).run events).Lockstep := by
  induction events using List.reverseRecOn with
  | nil => exact begin_lockstep types
  | append_singleton events e ih =>
      rw [eachStep_append] at hrun
      rcases run_coherent types true events with ⟨kind, hc⟩
      have htidy := run_tidy types true events hrun.1
      rw [run, List.foldl_append]
      refine step_lockstep hc (ih hrun.1) fun p fault heq => ?_
      have hcond := hrun.2.1
      rw [heq] at hcond
      exact completes_of_keeps hc htidy hcond

/-- In a run that keeps to the kinds the consumer accepts every delta and
    holds, after every step, what storage holds. -/
theorem consumer_in_lockstep (kin : String → String → Kin) (types : Types)
    (events : List Event)
    (hrun : EachStep step (KeepsKinds kin) (begin types true) events) :
    let w := (begin types true).run events
    let b := w.world.store.backend
    w.attached = true ∧ Applier.replay w.stream {} = .ok () w.consumer ∧
      w.stream.map Delta.tid = List.range' 1 w.world.store.lastTid ∧
      w.consumer.watermark = w.world.store.lastTid ∧
      (∀ k, w.consumer.objects.get? k = (b.objects.get? k).map StoredRecord.payload) ∧
      (∀ cid v, w.consumer.types.get? cid = some v ↔ (cid, v) ∈ b.types) ∧
      w.consumer.rootOid = b.marks.rootOid := by
  intro w b
  have h := run_lockstep kin types events hrun
  exact ⟨h.attached, h.replayed, h.tids, h.watermark, h.mirrors.objects, h.mirrors.types,
    h.mirrors.rootOid⟩

/-- After two commits of parts the consumer holds both. -/
theorem consumer_in_lockstep_on_parts :
    let w := (begin partTypes true).run (secondPart (.int 2) ++ [.act partOwner (.commit false)])
    w.attached = true ∧ w.consumer.watermark = 2 ∧
      (w.consumer.objects.get? (oidBase + 1)).isSome = true := by
  intro w
  have hrun : EachStep step (KeepsKinds fun _ _ => .family .number) (begin partTypes true)
      (secondPart (.int 2) ++ [.act partOwner (.commit false)]) :=
    ⟨trivial, trivial, by decide +kernel, trivial, trivial, trivial, by decide +kernel, trivial⟩
  have h := consumer_in_lockstep (fun _ _ => .family .number) partTypes
    (secondPart (.int 2) ++ [.act partOwner (.commit false)]) hrun
  refine ⟨h.1, h.2.2.2.1.trans (by decide +kernel), ?_⟩
  rw [h.2.2.2.2.1, Option.isSome_map]
  decide +kernel

/-- The string code that is stored and raises leaves the consumer behind, and the
    delta of the next commit finds a gap. -/
theorem consumer_left_behind :
    let w := (begin partTypes true).run
      (secondPart (.scalar (.str "a")) ++ [.act partOwner (.commit false)])
    let w' := w.run [.act partOwner (.construct "part" [("code", .int 3)]),
      .act partOwner (.store 2), .act partOwner (.commit false)]
    (w.world.store.backend.objects.get? (oidBase + 1)).isSome = true ∧
      w.consumer.objects.get? (oidBase + 1) = none ∧ w'.world.store.lastTid = 3 ∧
      w'.attached = false ∧ w'.consumer.watermark = 1 := by
  decide +kernel

end Watched

end DataCrystal
