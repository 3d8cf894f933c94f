import DataCrystal.Follower

/-!
# Replicas

A storage is a replica of a stream when it holds what a consumer of the stream
holds. The batch a follower makes of the next delta takes a replica to a replica
of one delta more, and no other delta gets that far: one that is older is
skipped, and one that is newer is a gap. So a replay only has to be followed
from replica to replica.

A database file refuses the batch of a delta it has applied already if the delta
brings a shape. A replay that goes on from the storage skips such a delta; one
that starts over does not.

## Main definitions

* `Replica`: A storage that holds what a consumer of a stream holds.
* `HighWater.Of`: The marks of a replay are those of a storage.
* `From`: A frame that is no delta of another store.
* `Fits`: Frames that bring a follower forward without a gap.

## Theorems

* `Replica.advance`: The next delta leads to the next replica.
* `bootstrapped`, `caughtUp`: What a replay leaves is a replica.
* `reopened_raises`: A replay from the first delta raises on a filled file.
-/

namespace DataCrystal

/-- Every id in use is below the marks, which are above zero, so that the marks a
    replay counts up are those that storage has. -/
structure Backend.Bounded (b : Backend) : Prop where
  oidPos : 0 < b.marks.nextOid
  cidPos : 0 < b.marks.nextCid
  records : ∀ k rec, b.objects.get? k = some rec → k < b.marks.nextOid ∧ rec.cid < b.marks.nextCid
  shapes : ∀ row ∈ b.types, row.1 < b.marks.nextCid

/-- A storage that holds what a consumer of a stream holds: the storage of a
    follower, at the watermark of that consumer. Before the first delta it is empty.
    -/
structure Replica (ds : List Delta) (a : Applier) (b : Backend) : Prop where
  served : Applier.Served ds a
  mirrors : a.Mirrors b
  nextTid : b.marks.nextTid = a.watermark + 1
  distinct : (b.types.map Prod.fst).Nodup
  bounded : b.Bounded
  pristine : ds = [] → b = {}

/-- The marks of a replay are those of a storage. A replay counts the highest ids,
    storage the next ones. -/
structure HighWater.Of (marks : HighWater) (b : Backend) : Prop where
  oid : marks.maxOid + 1 = b.marks.nextOid
  cid : marks.maxCid + 1 = b.marks.nextCid
  root : marks.root = b.marks.rootOid

theorem le_foldl_max {α : Type} (f : α → Nat) (xs : List α) : ∀ n : Nat,
    n ≤ xs.foldl (fun n x => max n (f x)) n ∧
      ∀ x ∈ xs, f x ≤ xs.foldl (fun n x => max n (f x)) n := by
  induction xs with
  | nil => exact fun n => ⟨le_rfl, fun x hx => absurd hx List.not_mem_nil⟩
  | cons y xs ih =>
      intro n
      rw [List.foldl_cons]
      rcases ih (max n (f y)) with ⟨hle, hall⟩
      refine ⟨le_trans (le_max_left n (f y)) hle, fun x hx => ?_⟩
      rcases List.mem_cons.mp hx with rfl | hx
      · exact le_trans (le_max_right n (f x)) hle
      · exact hall x hx

section Batches

open Applier

variable {ds : List Delta} {a a' : Applier} {b : Backend} {d : Delta} {marks : HighWater}

/-- The record as a follower files it. -/
def StoredRecord.stamped (tid : Nat) (rec : StoredRecord) : StoredRecord := { rec with tid := tid }

/-- The operations of one batch give back what they were made of. -/
theorem deltaToBatch_ops (marks : HighWater) {prior : Nat → Option Payload} {records : List StoredRecord}
    {deletes : List (Nat × Nat × Payload)}
    (hops : d.ops = records.map (upsertOp prior) ++ deletes.map deleteOp) :
    (deltaToBatch d marks).1.records = records.map (StoredRecord.stamped d.tid) ∧
      (deltaToBatch d marks).1.deletes = deletes.map Prod.fst := by
  have hupserts : (records.map (upsertOp prior)).filterMap (DeltaOp.record d.tid) =
      records.map (StoredRecord.stamped d.tid) := by
    rw [List.filterMap_map, ← List.filterMap_eq_map]
    rfl
  have hdeletes : (deletes.map deleteOp).filterMap (DeltaOp.record d.tid) = [] := by
    rw [List.filterMap_map, List.filterMap_eq_nil_iff]
    exact fun e _ => rfl
  constructor
  · change d.ops.filterMap (DeltaOp.record d.tid) = _
    rw [hops, List.filterMap_append, hupserts, hdeletes, List.append_nil]
  · change (d.ops.filter fun op => op.kind ≠ .upsert).map DeltaOp.oid = _
    rw [hops, List.filter_append, List.map_append]
    have hnone : (records.map (upsertOp prior)).filter (fun op => op.kind ≠ .upsert) = [] := by
      rw [List.filter_eq_nil_iff]
      intro op hop
      rcases List.mem_map.mp hop with ⟨rec, -, rfl⟩
      simp [upsertOp]
    have hall : (deletes.map deleteOp).filter (fun op => op.kind ≠ .upsert) =
        deletes.map deleteOp := by
      rw [List.filter_eq_self]
      intro op hop
      rcases List.mem_map.mp hop with ⟨e, -, rfl⟩
      simp [deleteOp]
    rw [hnone, hall, List.map_map]
    rfl

/-- The ids a batch brings are below its marks, and the marks do not fall. -/
theorem deltaToBatch_marks (d : Delta) (hof : marks.Of b) :
    let batch := (deltaToBatch d marks).1
    b.marks.nextOid ≤ batch.marks.nextOid ∧ b.marks.nextCid ≤ batch.marks.nextCid ∧
      (∀ rec ∈ batch.records, rec.oid < batch.marks.nextOid ∧ rec.cid < batch.marks.nextCid) ∧
      ∀ row ∈ batch.newTypes, row.1 < batch.marks.nextCid := by
  intro batch
  have hoids := le_foldl_max StoredRecord.oid batch.records marks.maxOid
  have hops := le_foldl_max DeltaOp.cid d.ops marks.maxCid
  have hrows := le_foldl_max (fun row : TypeRow => row.1) d.types
    (d.ops.foldl (fun n op => max n op.cid) marks.maxCid)
  have hoid : batch.marks.nextOid =
      batch.records.foldl (fun n rec => max n rec.oid) marks.maxOid + 1 := rfl
  have hcid : batch.marks.nextCid = d.types.foldl (fun n row => max n row.1)
      (d.ops.foldl (fun n op => max n op.cid) marks.maxCid) + 1 := rfl
  refine ⟨?_, ?_, fun rec hrec => ⟨?_, ?_⟩, fun row hrow => ?_⟩
  · rw [hoid, ← hof.oid]
    omega
  · rw [hcid, ← hof.cid]
    omega
  · have hle := hoids.2 rec hrec
    omega
  · -- the shape of a record is the shape of its operation
    rcases List.mem_filterMap.mp hrec with ⟨op, hop, heq⟩
    unfold DeltaOp.record at heq
    split at heq
    · cases heq
      have hle := hops.2 op hop
      change op.cid < batch.marks.nextCid
      omega
    · cases heq
  · have hle := hrows.2 row hrow
    omega

/-- The batch of the next delta has shapes the storage lacks. -/
theorem Replica.distinct_shapes (h : Replica ds a b) (hd : Next a d a') :
    ((b.types ++ d.types).map Prod.fst).Nodup := by
  rw [List.map_append, List.nodup_append]
  refine ⟨h.distinct, hd.distinct, fun i hi j hj hij => ?_⟩
  rcases List.mem_map.mp hi with ⟨row, hrow, rfl⟩
  rcases List.mem_map.mp hj with ⟨row', hrow', rfl⟩
  have hseen := (h.mirrors.types row.1 row.2).mpr hrow
  rw [hij, hd.unseen row' hrow'] at hseen
  cases hseen

/-- The next delta leads to the next replica. -/
theorem Replica.advance (h : Replica ds a b) (hd : Next a d a') (hof : marks.Of b) :
    Replica (ds ++ [d]) a' (b.apply (deltaToBatch d marks).1) ∧
      (deltaToBatch d marks).2.Of (b.apply (deltaToBatch d marks).1) := by
  have hnd := h.distinct_shapes hd
  have hbelow := deltaToBatch_marks d hof
  rcases hd.result with ⟨prior, records, deletes, hops, hresult⟩
  -- The operations of the delta are split into writes and deletions.
  rcases deltaToBatch_ops marks hops with ⟨hrecords, hdeletes⟩
  refine ⟨⟨.next h.served hd, ⟨fun k => ?_, fun cid v => ?_, ?_⟩, ?_, hnd, ?_,
    fun hno => absurd hno (List.append_ne_nil_of_right_ne_nil _ (List.cons_ne_nil d []))⟩,
    rfl, rfl, rfl⟩
  · -- writes and deletions go in as the consumer takes them
    unfold Backend.payloadAt Backend.apply
    rw [hresult, hrecords, hdeletes]
    dsimp only
    rw [get?_foldl_erase_payload, Backend.get?_foldl_erase]
    by_cases hk : k ∈ deletes.map Prod.fst
    · rw [if_pos hk, if_pos hk]
      rfl
    · rw [if_neg hk, if_neg hk, ← get?_foldl_payloads _ k a.objects b.objects (h.mirrors.objects k),
        List.foldl_map]
      rfl
  · rw [hresult]
    exact learn_types h.mirrors hnd cid v
  -- A delta without a root keeps the root, and only a consumer without one has none.
  · rw [hresult]
    change d.rootOid = d.rootOid.or marks.root
    cases hroot : d.rootOid with
    | some oid => rfl
    | none =>
        have hnone : a.rootOid = none := by
          by_contra hsome
          exact hd.rooted hsome hroot
        rw [hof.root, ← h.mirrors.rootOid, hnone]
        rfl
  · change d.tid + 1 = a'.watermark + 1
    rw [hd.watermark]
  -- The new marks are above every OID and CID of the batch.
  · refine ⟨Nat.succ_pos _, Nat.succ_pos _, ?_, ?_⟩
    · intro k rec hrec
      rcases (Backend.get?_apply_eq_some hrec).2 with ⟨hmem, rfl⟩ | ⟨-, hold⟩
      · exact hbelow.2.2.1 rec hmem
      · have hlt := h.bounded.records k rec hold
        exact ⟨lt_of_lt_of_le hlt.1 hbelow.1, lt_of_lt_of_le hlt.2 hbelow.2.1⟩
    · intro row hrow
      rcases List.mem_append.mp hrow with hrow | hrow
      · exact lt_of_lt_of_le (h.bounded.shapes row hrow) hbelow.2.1
      · exact hbelow.2.2.2 row hrow

/-- An empty storage is a replica of no delta. -/
theorem replica_empty : Replica [] {} {} := by
  have hmirrors : Mirrors {} {} := by
    refine ⟨fun k => rfl, fun cid v => ⟨fun h => ?_, fun h => absurd h List.not_mem_nil⟩, rfl⟩
    cases h
  refine ⟨.start, hmirrors, rfl, List.nodup_nil,
    ⟨?_, Nat.one_pos, fun k rec h => ?_, fun row h => ?_⟩, fun _ => rfl⟩
  · exact Nat.two_pow_pos 40
  · cases h
  · exact absurd h List.not_mem_nil

/-- The shapes a stream has brought are known to its consumer. -/
theorem Applier.Served.shape_known (h : Served ds a) (hmem : d ∈ ds) {row : TypeRow}
    (hrow : row ∈ d.types) : a.types.get? row.1 = some row.2 := by
  induction h with
  | start => exact absurd hmem List.not_mem_nil
  | @next ds a a' e h hnext ih =>
      rcases hnext.result with ⟨prior, records, deletes, -, rfl⟩
      change (e.types.foldl (fun types row => types.set row.1 row.2) a.types).get? row.1 = some row.2
      rcases List.mem_append.mp hmem with hold | hnew
      · have hknown := ih hold
        rw [Dict.get?_foldl_set_of_not_mem e.types row.1 a.types, hknown]
        intro hseen
        rcases List.mem_map.mp hseen with ⟨row', hrow', heq⟩
        rw [← heq, hnext.unseen row' hrow'] at hknown
        cases hknown
      · rw [List.mem_singleton] at hnew
        exact Dict.get?_foldl_set_of_mem e.types row.1 row.2 hnext.distinct a.types (hnew ▸ hrow)

end Batches

section Replays

open Applier

variable {ds ds₁ : List Delta} {a aₙ : Applier} {b : Backend} {d : Delta} {f : Frame} {m : Medium}

/-- A frame that is no delta of another store: what passes for a delta here is
    one of the stream. -/
def Frame.From (ds : List Delta) : Frame → Prop
  | .malformed => True
  | .delta d _ => checkDeltaHeader d = .ok () → d ∈ ds

/-- A storage that is a replica of a part of a stream. -/
def ReplicaIn (ds : List Delta) (b : Backend) : Prop :=
  ∃ ds₁ a, ds₁ <+: ds ∧ Replica ds₁ a b

theorem storeBatch_ok {batch : CommitBatch} (ht : m.takes b batch = true) :
    storeBatch m false batch b = .ok () (b.apply batch) := by
  unfold storeBatch
  rw [bind_run_ok (get_run b), ht]
  rfl

theorem storeBatch_refused {batch : CommitBatch} (ht : m.takes b batch = false) (refused : Bool) :
    storeBatch m refused batch b = .error .backend b := by
  unfold storeBatch
  rw [bind_run_ok (get_run b), ht, Bool.not_false, Bool.or_true]
  rfl

theorem storeBatch_fault (batch : CommitBatch) : storeBatch m true batch b = .error .backend b := by
  unfold storeBatch
  rw [bind_run_ok (get_run b)]
  rfl

theorem takes_next {a' : Applier} (marks : HighWater) (h : Replica ds₁ a b) (hd : Next a d a') :
    m.takes b (deltaToBatch d marks).1 = true := by
  cases m with
  | memory => rfl
  | sqlite => exact decide_eq_true (h.distinct_shapes hd)

/-- A replay that goes on, at a replica: the deltas it has stored are the first of
    the stream, up to its watermark. -/
structure CatchUp.At (ds ds₁ : List Delta) (a : Applier) (s : CatchUp) : Prop where
  before : ds₁ <+: ds
  replica : Replica ds₁ a s.backend
  watermark : s.watermark = a.watermark
  marks : s.marks.Of s.backend

theorem CatchUp.start_at (hpre : ds₁ <+: ds) (h : Replica ds₁ a b) :
    (CatchUp.start b).At ds ds₁ a := by
  have hoid := h.bounded.oidPos
  have hcid := h.bounded.cidPos
  have htid := h.nextTid
  refine ⟨hpre, h, ?_, ?_, ?_, rfl⟩
  · change b.marks.nextTid - 1 = a.watermark
    omega
  · change b.marks.nextOid - 1 + 1 = b.marks.nextOid
    omega
  · change b.marks.nextCid - 1 + 1 = b.marks.nextCid
    omega

/-- A frame is skipped, takes the replay to the next replica, or raises and
    leaves the storage alone. -/
theorem catchUpOne_cases (hds : Served ds aₙ) (hfrom : f.From ds) {s : CatchUp}
    (hat : s.At ds ds₁ a) :
    (∃ d refused, f = .delta d refused ∧ d ∈ ds ∧ d.tid ≤ s.watermark ∧
        catchUpOne m f s = .ok () s) ∨
      (∃ d a' s', f = .delta d false ∧ d ∈ ds ∧ d.tid = s.watermark + 1 ∧
        s'.At ds (ds₁ ++ [d]) a' ∧ s'.watermark = d.tid ∧ catchUpOne m f s = .ok () s') ∨
      ∃ e s', s'.backend = s.backend ∧ catchUpOne m f s = .error e s' ∧
        ∀ d ∈ ds, ∀ refused, f = .delta d refused →
          s.watermark < d.tid ∧ (refused = false → s.watermark + 1 < d.tid) := by
  cases f with
  | malformed => exact Or.inr (Or.inr ⟨.malformed, s, rfl, rfl, fun d _ r heq => by cases heq⟩)
  | delta d refused =>
      unfold catchUpOne
      dsimp only
      -- A frame with a foreign header is none of the stream.
      cases hheader : checkDeltaHeader d with
      | error e =>
          refine Or.inr (Or.inr ⟨e, s, rfl, rfl, fun d' hd' r heq => ?_⟩)
          cases heq
          rcases hds.mem d hd' with ⟨_, _, _, _, -, -, hn⟩
          cases hheader.symm.trans hn.header
      | ok u =>
          have hmem : d ∈ ds := hfrom hheader
          have hok : (ofExcept (Except.ok u) : EStateM DeltaErr CatchUp Unit) s = .ok () s := rfl
          rw [bind_run_ok hok, bind_run_ok (get_run s)]
          by_cases hold : d.tid ≤ s.watermark
          · exact Or.inl ⟨d, refused, rfl, hmem, hold, by rw [if_pos hold]; rfl⟩
          rw [if_neg hold]
          -- The next one is stored, unless the transaction fails and leaves only the marks moved.
          by_cases hnext : d.tid = s.watermark + 1
          · rw [if_neg (not_not_intro hnext)]
            rcases hds.next_of_tid hat.replica.served hat.before hmem (hat.watermark ▸ hnext) with
              ⟨a', hn, hpre⟩
            rcases hat.replica.advance hn hat.marks with ⟨hreplica, hmarks⟩
            cases refused with
            | false =>
                refine Or.inr (Or.inl ⟨d, a', ⟨s.backend.apply (deltaToBatch d s.marks).1, d.tid,
                  (deltaToBatch d s.marks).2⟩, rfl, hmem, hnext,
                  ⟨hpre, hreplica, hn.watermark.symm, hmarks⟩, rfl, ?_⟩)
                have hstore := storeBatch_ok (m := m) (takes_next s.marks hat.replica hn)
                rw [bind_run_ok (set_run _ s)]
                simp only [bind_run, zoom, hstore]
                rfl
            | true =>
                refine Or.inr (Or.inr ⟨.backend, { s with marks := (deltaToBatch d s.marks).2 }, rfl,
                  ?_, fun d' _ r heq => ?_⟩)
                · have hstore := storeBatch_fault (m := m) (b := s.backend)
                    (deltaToBatch d s.marks).1
                  rw [bind_run_ok (set_run _ s)]
                  simp only [bind_run, zoom, hstore]
                · cases heq
                  exact ⟨by omega, fun hno => by cases hno⟩
          · refine Or.inr (Or.inr ⟨.gap s.watermark d.tid, s, rfl, by rw [if_pos hnext]; rfl,
              fun d' _ r heq => ?_⟩)
            cases heq
            exact ⟨by omega, fun _ => by omega⟩

/-- Whether a replay from a watermark applies a delta before anything raises. -/
def advances (n : Nat) : List Frame → Bool
  | [] => false
  | .malformed :: _ => false
  | .delta d refused :: frames =>
    if checkDeltaHeader d = .ok () then
      if d.tid ≤ n then advances n frames else d.tid = n + 1 && !refused
    else false

/-- The watermark behind some frames. -/
def reach (n : Nat) (frames : List Frame) : Nat :=
  frames.foldl (fun n f =>
    match f with
    | .delta d _ => max n d.tid
    | .malformed => n) n

theorem le_reach (n : Nat) (frames : List Frame) : n ≤ reach n frames := by
  induction frames generalizing n with
  | nil => exact le_rfl
  | cons f frames ih =>
      cases f with
      | malformed => exact ih n
      | delta d refused => exact le_trans (le_max_left n d.tid) (ih _)

/-- A frame of a stream that is a repeat at a watermark, or the next one and
    stored. -/
def Frame.Fit (ds : List Delta) (n : Nat) : Frame → Prop
  | .malformed => False
  | .delta d refused => d ∈ ds ∧ (d.tid ≤ n ∨ d.tid = n + 1 ∧ refused = false)

/-- Frames of a stream that bring a follower at a watermark forward without a
    gap; frames may overlap and repeat. -/
def Fits (ds : List Delta) : Nat → List Frame → Prop
  | _, [] => True
  | n, f :: frames => f.Fit ds n ∧ Fits ds (reach n [f]) frames

instance decidableFit (ds : List Delta) (n : Nat) : ∀ f : Frame, Decidable (f.Fit ds n)
  | .malformed => inferInstanceAs (Decidable False)
  | .delta d refused =>
    inferInstanceAs (Decidable (d ∈ ds ∧ (d.tid ≤ n ∨ d.tid = n + 1 ∧ refused = false)))

instance decidableFits (ds : List Delta) : ∀ n frames, Decidable (Fits ds n frames)
  | _, [] => isTrue trivial
  | n, f :: frames =>
    have := decidableFits ds (reach n [f]) frames
    inferInstanceAs (Decidable (f.Fit ds n ∧ Fits ds (reach n [f]) frames))

theorem Fits.all_from {n : Nat} {frames : List Frame} (h : Fits ds n frames) :
    ∀ f ∈ frames, f.From ds := by
  induction frames generalizing n with
  | nil => exact fun f hf => absurd hf List.not_mem_nil
  | cons f frames ih =>
      intro g hg
      rcases List.mem_cons.mp hg with rfl | hg
      · cases g with
        | malformed => exact trivial
        | delta d refused => exact fun _ => h.1.1
      · exact ih h.2 g hg

theorem advances_skip {refused : Bool} {n : Nat} (hds : Served ds aₙ) (hd : d ∈ ds)
    (htid : d.tid ≤ n) (frames : List Frame) :
    advances n (.delta d refused :: frames) = advances n frames := by
  rcases hds.mem d hd with ⟨_, _, _, _, -, -, hn⟩
  rw [advances, if_pos hn.header, if_pos htid]

/-- A replay leaves a replica, however far it gets. It changes the storage if and
    only if it applies a delta. -/
theorem catchUps_cases (hds : Served ds aₙ) (frames : List Frame) :
    (∀ f ∈ frames, f.From ds) → ∀ {s : CatchUp} {ds₁ : List Delta} {a : Applier},
      s.At ds ds₁ a →
      (∃ ds₂ a₂ s', frames.forM (catchUpOne m) s = .ok () s' ∧ s'.At ds ds₂ a₂ ∧
        s.watermark ≤ s'.watermark ∧ (s'.watermark = s.watermark → s' = s) ∧
        (advances s.watermark frames = false → s' = s)) ∨
      ∃ e ds₂ a₂ s₁ s', frames.forM (catchUpOne m) s = .error e s' ∧ s₁.At ds ds₂ a₂ ∧
        s'.backend = s₁.backend ∧ s.watermark ≤ s₁.watermark ∧
        (advances s.watermark frames = false → s₁ = s) ∧
        (advances s.watermark frames = true → s.watermark < s₁.watermark) := by
  induction frames with
  | nil => exact fun _ s ds₁ a hat => Or.inl ⟨ds₁, a, s, rfl, hat, le_rfl, fun _ => rfl, fun _ => rfl⟩
  | cons f frames ih =>
      intro hfrom s ds₁ a hat
      have hrest := fun g hg => hfrom g (List.mem_cons_of_mem f hg)
      rcases catchUpOne_cases (m := m) hds (hfrom f List.mem_cons_self) hat with
        ⟨d, refused, rfl, hd, htid, hone⟩ | ⟨d, a', s₂, rfl, hd, htid, hat', hwm, hone⟩ |
        ⟨e, s', hb, hone, hno⟩
      -- Skipped: the rest goes on from the same state.
      · rw [forM_cons_run, bind_run_ok hone, advances_skip hds hd htid]
        exact ih hrest hat
      -- Applied: the state has moved, whatever comes after it.
      · rw [forM_cons_run, bind_run_ok hone]
        have hahead : ¬d.tid ≤ s.watermark := by omega
        have hadvances : advances s.watermark (.delta d false :: frames) = true := by
          rcases hds.mem d hd with ⟨_, _, _, _, -, -, hn⟩
          rw [advances, if_pos hn.header, if_neg hahead, htid]
          simp
        rcases ih hrest hat' with ⟨ds₂, a₂, s', hrun, hat₂, hle, -⟩ |
          ⟨e, ds₂, a₂, s₁, s', hrun, hat₂, hb, hle, -, -⟩
        · refine Or.inl ⟨ds₂, a₂, s', hrun, hat₂, by omega, fun heq => by omega, fun hfalse => ?_⟩
          rw [hadvances] at hfalse
          cases hfalse
        · refine Or.inr ⟨e, ds₂, a₂, s₁, s', hrun, hat₂, hb, by omega, fun hfalse => ?_, fun _ => ?_⟩
          · rw [hadvances] at hfalse
            cases hfalse
          · omega
      -- Stopped: nothing was applied, and nothing here could have been.
      · have hstuck : advances s.watermark (f :: frames) = false := by
          cases f with
          | malformed => rfl
          | delta d refused =>
              rw [advances]
              split
              · rename_i hheader
                rcases hno d (hfrom _ List.mem_cons_self hheader) refused rfl with ⟨hlt, hgap⟩
                rw [if_neg (by omega)]
                cases refused with
                | true => rw [Bool.not_true, Bool.and_false]
                | false =>
                    have hskips := hgap rfl
                    rw [decide_eq_false (by omega), Bool.false_and]
              · rfl
        refine Or.inr ⟨e, ds₁, a, s, s', ?_, hat, hb, le_rfl, fun _ => rfl, fun htrue => ?_⟩
        · rw [forM_cons_run, bind_run_error hone]
        · rw [hstuck] at htrue
          cases htrue

/-- Frames that fit bring a replay to the watermark they reach. -/
theorem catchUps_fit (hds : Served ds aₙ) (frames : List Frame) :
    ∀ {s : CatchUp} {ds₁ : List Delta} {a : Applier}, s.At ds ds₁ a →
      Fits ds s.watermark frames → ∃ ds₂ a₂ s', frames.forM (catchUpOne m) s = .ok () s' ∧
        s'.At ds ds₂ a₂ ∧ s'.watermark = reach s.watermark frames ∧
        (s'.watermark = s.watermark → s' = s) := by
  induction frames with
  | nil => exact fun {s ds₁ a} hat _ => ⟨ds₁, a, s, rfl, hat, rfl, fun _ => rfl⟩
  | cons f frames ih =>
      intro s ds₁ a hat hfits
      rcases hfits with ⟨hfit, hrest⟩
      cases f with
      | malformed => exact absurd hfit id
      | delta d refused =>
          have hd : d ∈ ds := hfit.1
          have hreach : reach s.watermark (.delta d refused :: frames) =
              reach (max s.watermark d.tid) frames := rfl
          rw [hreach]
          change Fits ds (max s.watermark d.tid) frames at hrest
          rcases catchUpOne_cases (m := m) hds (f := .delta d refused) (fun _ => hd) hat with
            ⟨d', refused', heq, -, hold, hone⟩ | ⟨d', a', s₂, heq, -, hnext, hat', hwm, hone⟩ |
            ⟨e, s', -, -, hno⟩
          -- A frame that was seen is skipped.
          · cases heq
            rw [max_eq_left hold] at hrest ⊢
            rw [forM_cons_run, bind_run_ok hone]
            exact ih hat hrest
          -- The next one is stored, and the rest goes on from there.
          · cases heq
            have hmax : max s.watermark d.tid = s₂.watermark := by omega
            rw [hmax] at hrest ⊢
            rw [forM_cons_run, bind_run_ok hone]
            rcases ih hat' hrest with ⟨ds₂, a₂, s', hrun, hat₂, hreached, -⟩
            have hle := le_reach s₂.watermark frames
            exact ⟨ds₂, a₂, s', hrun, hat₂, hreached, fun heq => by omega⟩
          -- And a frame that fits raises nothing.
          · rcases hno d hd refused rfl with ⟨hlt, hgap⟩
            rcases hfit.2 with hold | ⟨hnext, hstored⟩
            · omega
            · have hskips := hgap hstored
              omega

/-- A replay from the first delta, at a replica. The consumer that checks the deltas
    has seen the same ones as storage. -/
structure Bootstrap.At (ds ds₁ : List Delta) (s : Bootstrap) : Prop where
  before : ds₁ <+: ds
  replica : Replica ds₁ s.applier s.backend
  marks : s.marks.Of s.backend

/-- What a consumer does with a frame of a stream it has applied a part of. -/
theorem apply_cases (hds : Served ds aₙ) (h₁ : Served ds₁ a) (hpre : ds₁ <+: ds)
    (hd : d ∈ ds) :
    (d.tid ≤ a.watermark ∧ Applier.apply d a = .ok false a) ∨
      (∃ a', Next a d a' ∧ ds₁ ++ [d] <+: ds) ∨
      a.watermark + 1 < d.tid ∧ Applier.apply d a = .error (.gap a.watermark d.tid) a := by
  have hheader : checkDeltaHeader d = .ok () := by
    rcases hds.mem d hd with ⟨_, _, _, _, -, -, hn⟩
    exact hn.header
  by_cases hold : d.tid ≤ a.watermark
  · exact Or.inl ⟨hold, apply_skip hheader hold⟩
  · by_cases hnext : d.tid = a.watermark + 1
    · exact Or.inr (Or.inl (hds.next_of_tid h₁ hpre hd hnext))
    · have hgap : a.watermark + 1 < d.tid := by omega
      exact Or.inr (Or.inr ⟨hgap, apply_gap hheader hgap⟩)

theorem bootstrapOne_cases (hds : Served ds aₙ) (hfrom : f.From ds) {s : Bootstrap}
    (hat : s.At ds ds₁) :
    (∃ d refused ds₂ s', f = .delta d refused ∧ s'.At ds ds₂ ∧
        s'.applier.watermark = max s.applier.watermark d.tid ∧ bootstrapOne m f s = .ok () s') ∨
      ∃ e s', s'.backend = s.backend ∧ bootstrapOne m f s = .error e s' ∧
        ∀ d ∈ ds, ∀ refused, f = .delta d refused → s.applier.watermark < d.tid ∧
          (refused = false → s.applier.watermark + 1 < d.tid) := by
  cases f with
  | malformed => exact Or.inr ⟨.malformed, s, rfl, rfl, fun d _ r heq => by cases heq⟩
  | delta d refused =>
      unfold bootstrapOne
      dsimp only
      by_cases hmem : d ∈ ds
      -- Known, next or behind a gap, as the applier judges it.
      · rcases apply_cases hds hat.replica.served hat.before hmem with ⟨hold, happly⟩ |
          ⟨a', hn, hpre⟩ | ⟨hgap, happly⟩
        · refine Or.inl ⟨d, refused, ds₁, s, rfl, hat, (max_eq_left hold).symm, ?_⟩
          simp only [bind_run, zoom, happly]
          rfl
        · rcases hat.replica.advance hn hat.marks with ⟨hreplica, hmarks⟩
          cases refused with
          | false =>
              refine Or.inl ⟨d, false, ds₁ ++ [d], ⟨s.backend.apply (deltaToBatch d s.marks).1, a',
                (deltaToBatch d s.marks).2⟩, rfl, ⟨hpre, hreplica, hmarks⟩, ?_, ?_⟩
              · have htid := hn.tid
                rw [hn.watermark]
                omega
              · have hstore := storeBatch_ok (m := m) (takes_next s.marks hat.replica hn)
                simp only [bind_run, zoom, hn.applied, get_run, set_run, hstore, if_true]
          | true =>
              refine Or.inr ⟨.backend, { s with applier := a', marks := (deltaToBatch d s.marks).2 },
                rfl, ?_, fun d' _ r heq => ?_⟩
              · have hstore := storeBatch_fault (m := m) (b := s.backend)
                  (deltaToBatch d s.marks).1
                simp only [bind_run, zoom, hn.applied, get_run, set_run, hstore, if_true]
              · cases heq
                have htid := hn.tid
                exact ⟨by omega, fun hno => by cases hno⟩
        · refine Or.inr ⟨.gap s.applier.watermark d.tid, s, rfl, ?_, fun d' _ r heq => ?_⟩
          · simp only [bind_run, zoom, happly]
          · cases heq
            exact ⟨by omega, fun _ => hgap⟩
      · -- what is no delta of the stream has a foreign header
        cases hheader : checkDeltaHeader d with
        | ok u => exact absurd (hfrom hheader) hmem
        | error e =>
            have happly : Applier.apply d s.applier = .error e s.applier := by
              unfold Applier.apply
              rw [hheader]
              rfl
            refine Or.inr ⟨e, s, rfl, ?_, fun d' hd' r heq => ?_⟩
            · simp only [bind_run, zoom, happly]
            · cases heq
              exact absurd hd' hmem

/-- A replay from the first delta leaves a replica, however far it gets. -/
theorem bootstraps_final (hds : Served ds aₙ) (frames : List Frame) :
    (∀ f ∈ frames, f.From ds) → ∀ {s : Bootstrap} {ds₁ : List Delta}, s.At ds ds₁ →
      ReplicaIn ds (finalState (frames.forM (bootstrapOne m) s)).backend := by
  induction frames with
  | nil => exact fun _ s ds₁ hat => ⟨ds₁, s.applier, hat.before, hat.replica⟩
  | cons f frames ih =>
      intro hfrom s ds₁ hat
      rw [forM_cons_run]
      rcases bootstrapOne_cases (m := m) hds (hfrom f List.mem_cons_self) hat with
        ⟨d, refused, ds₂, s', -, hat', -, hone⟩ | ⟨e, s', hb, hone, -⟩
      · rw [bind_run_ok hone]
        exact ih (fun g hg => hfrom g (List.mem_cons_of_mem f hg)) hat'
      · rw [bind_run_error hone, finalState_error, hb]
        exact ⟨ds₁, s.applier, hat.before, hat.replica⟩

/-- Frames that fit are replayed from the first delta on. -/
theorem bootstraps_fit (hds : Served ds aₙ) (frames : List Frame) :
    ∀ {s : Bootstrap} {ds₁ : List Delta}, s.At ds ds₁ →
      Fits ds s.applier.watermark frames → ∃ ds₂ s', frames.forM (bootstrapOne m) s = .ok () s' ∧
        s'.At ds ds₂ ∧ s'.applier.watermark = reach s.applier.watermark frames := by
  induction frames with
  | nil => exact fun {s ds₁} hat _ => ⟨ds₁, s, rfl, hat, rfl⟩
  | cons f frames ih =>
      intro s ds₁ hat hfits
      rcases hfits with ⟨hfit, hrest⟩
      cases f with
      | malformed => exact absurd hfit id
      | delta d refused =>
          have hd : d ∈ ds := hfit.1
          have hreach : reach s.applier.watermark (.delta d refused :: frames) =
              reach (max s.applier.watermark d.tid) frames := rfl
          rw [hreach]
          change Fits ds (max s.applier.watermark d.tid) frames at hrest
          rcases bootstrapOne_cases (m := m) hds (f := .delta d refused) (fun _ => hd) hat with
            ⟨d', refused', ds₂, s', heq, hat', hwm, hone⟩ | ⟨e, s', -, -, hno⟩
          · cases heq
            rw [← hwm] at hrest ⊢
            rw [forM_cons_run, bind_run_ok hone]
            exact ih hat' hrest
          · rcases hno d hd refused rfl with ⟨hlt, hgap⟩
            rcases hfit.2 with hold | ⟨hnext, hstored⟩
            · omega
            · have hskips := hgap hstored
              omega

/-- On a file that has applied a delta a replay from the first one raises at its
    first frame, and leaves the file alone. -/
theorem bootstrapOne_filled (hds : Served ds aₙ) (hfrom : f.From ds) (hpre : ds₁ <+: ds)
    (h : Replica ds₁ a b) (hfilled : ds₁ ≠ []) :
    ∃ e s', bootstrapOne .sqlite f { backend := b } = .error e s' ∧ s'.backend = b := by
  cases f with
  | malformed => exact ⟨.malformed, _, rfl, rfl⟩
  | delta d refused =>
      unfold bootstrapOne
      dsimp only
      by_cases hmem : d ∈ ds
      · rcases apply_cases hds .start (List.nil_prefix) hmem with ⟨hold, -⟩ | ⟨a', hn, hpre'⟩ |
          ⟨-, happly⟩
        · -- every delta of a stream has a transaction
          rcases hds.mem d hmem with ⟨_, _, _, _, -, -, hn⟩
          have htid := hn.tid
          change d.tid ≤ 0 at hold
          omega
        · -- the file has the shapes of the first delta
          have hfirst : [d] <+: ds₁ := by
            refine List.prefix_of_prefix_length_le hpre' hpre ?_
            exact List.length_pos_iff.mpr hfilled
          have hshape : ∃ row ∈ d.types, row ∈ b.types := by
            rcases List.exists_mem_of_ne_nil _ (hn.shaped rfl) with ⟨row, hrow⟩
            have hknown := h.served.shape_known (hfirst.subset List.mem_cons_self) hrow
            exact ⟨row, hrow, (h.mirrors.types row.1 row.2).mp hknown⟩
          have htakes : Medium.sqlite.takes b (deltaToBatch d {}).1 = false := by
            refine decide_eq_false fun hnd => ?_
            rcases hshape with ⟨row, hrow, hstored⟩
            rw [List.map_append, List.nodup_append] at hnd
            exact hnd.2.2 row.1 (List.mem_map_of_mem hstored) row.1 (List.mem_map_of_mem hrow) rfl
          have hstore := storeBatch_refused htakes refused
          refine ⟨.backend, { backend := b, applier := a', marks := (deltaToBatch d {}).2 }, ?_, rfl⟩
          simp only [bind_run, zoom, hn.applied, get_run, set_run, hstore, if_true]
        · refine ⟨.gap 0 d.tid, { backend := b }, ?_, rfl⟩
          simp only [bind_run, zoom, happly]
      -- A foreign header is refused before anything is read.
      · cases hheader : checkDeltaHeader d with
        | ok u => exact absurd (hfrom hheader) hmem
        | error e =>
            have happly : Applier.apply d {} = .error e {} := by
              unfold Applier.apply
              rw [hheader]
              rfl
            refine ⟨e, { backend := b }, ?_, rfl⟩
            simp only [bind_run, zoom, happly]

end Replays

end DataCrystal
