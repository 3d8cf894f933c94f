import DataCrystal.TypeRows
import DataCrystal.Served

/-!
# What a Stream Holds

A consumer attached from the start makes something of every record it is told of:
a row of a table, a document of an index. Whatever it makes, it makes it of the
records the deltas carry. `held` is these records, delta by delta, and a stream
that has reached storage holds exactly what storage holds, with the shape and the
transaction each record was written under.

## Main definitions

* `DeltaOp.hold`: What an operation of a delta does to the records.
* `held`: The records a stream carries.
* `Backend.Filing`: Every record is filed under the one row of its shape.

## Theorems

* `held_batch`: The delta of a batch carries what the batch stores.
* `run_filedAs`: Every record of a run is filed under a row of its length.
* `stream_holds_storage`: A stream that has reached storage holds it.
-/

namespace DataCrystal

open Store

/-- What an operation does to the records that are held. -/
def DeltaOp.hold (tid : Nat) (objects : Dict Nat StoredRecord) (op : DeltaOp) :
    Dict Nat StoredRecord :=
  match op.kind, op.payload with
  | .upsert, some payload => objects.set op.oid ⟨op.oid, op.cid, tid, payload⟩
  | .delete, _ => objects.erase op.oid
  | _, _ => objects

/-- The records a stream carries. -/
def held (ds : List Delta) : Dict Nat StoredRecord :=
  ds.foldl (fun objects d => d.ops.foldl (DeltaOp.hold d.tid) objects) Dict.empty

theorem held_snoc (ds : List Delta) (d : Delta) :
    held (ds ++ [d]) = d.ops.foldl (DeltaOp.hold d.tid) (held ds) := by
  rw [held, List.foldl_append]
  rfl

/-- Every record is filed under the one row of its shape, with a name for each of
    its values. -/
structure Backend.Filing (b : Backend) : Prop where
  filed : b.Filed
  rows : (b.types.map Prod.fst).Nodup
  row : ∀ oid rec, b.objects.get? oid = some rec → ∃ c names, b.FiledAs rec c names

namespace Store

variable {types : Types} {p : Principal} {kind : Nat → String} {s s₁ t : Store}
  {m : IndexManager} {out : EncodedBatch}

/-- The delta of a batch carries what the batch stores. -/
theorem held_batch {priors : Dict Nat Payload × List (Nat × Nat × Payload)}
    (hpriors : t.readDeltaPriors = .ok priors) :
    (t.deltaOf p out priors).ops.foldl (DeltaOp.hold (t.deltaOf p out priors).tid)
      t.backend.objects = (t.backend.apply (t.buildBatch out)).objects := by
  have hdeleted : ∀ (ds : List (Nat × Nat × Payload)) (tid : Nat) (objects : Dict Nat StoredRecord),
      (ds.map Applier.deleteOp).foldl (DeltaOp.hold tid) objects =
        (ds.map Prod.fst).foldl Dict.erase objects := by
    intro ds tid objects
    rw [List.foldl_map, List.foldl_map]
    rfl
  have hwritten : ((t.buildBatch out).records.map (Applier.upsertOp priors.1.get?)).foldl
      (DeltaOp.hold t.alloc.nextTid) t.backend.objects =
        (t.buildBatch out).records.foldl (fun d r => d.set r.oid r) t.backend.objects := by
    unfold buildBatch
    rw [List.foldl_map, List.foldl_map, List.foldl_map]
    rfl
  change ((t.buildBatch out).records.map (Applier.upsertOp priors.1.get?) ++
    priors.2.map Applier.deleteOp).foldl (DeltaOp.hold t.alloc.nextTid) t.backend.objects = _
  rw [List.foldl_append, hwritten, hdeleted, (readDeltaPriors_deleted hpriors).1]
  rfl

end Store

namespace Watched

variable {w : Watched}

/-- A log in lock step is not behind. -/
theorem Lockstep.not_behind (h : w.Lockstep) : ¬w.Behind := by
  intro hb
  have hlast := h.inStep.lastTid
  have hwm := h.watermark
  have habove := hb.2
  omega

/-- A stream that is in lock step with storage holds what storage holds. -/
theorem run_held (types : Types) (events : List Event) :
    let w := (begin types true).run events
    w.Lockstep → held w.stream = w.world.store.backend.objects := by
  induction events using List.reverseRecOn with
  | nil => exact fun _ => rfl
  | append_singleton events e ih =>
      intro w hlock
      have hw : w = ((begin types true).run events).step e := by
        change (begin types true).run (events ++ [e]) = _
        rw [run, List.foldl_append]
        rfl
      have hserves := run_served types events
      rcases run_coherent types true events with ⟨kind, hc⟩
      rw [hw] at hlock ⊢
      clear hw w
      generalize (begin types true).run events = w at ih hserves hc hlock ⊢
      -- Whoever is in lock step now has been before.
      have hbefore : w.Lockstep := by
        rcases hserves.state with h | hb
        · exact h
        · exact absurd (step_behind hc hserves hb) hlock.not_behind
      have hheld := ih hbefore
      by_cases hcommit : ∃ p fault, e = .act p (.commit fault)
      · rcases hcommit with ⟨p, fault, rfl⟩
        change held (w.commit p fault).stream = (w.commit p fault).world.store.backend.objects
        rcases commit_outcome w p fault hbefore.attached with ⟨heq, hends⟩ |
          ⟨s₁, m, out, t, priors, rfl, hcap, hpriors, ⟨tid, u, hp3, heq⟩ | ⟨e, u, hp3, heq⟩⟩
        · have hb := refused_backend hends
          rw [heq]
          exact hheld.trans (congrArg Backend.objects hb.symm)
        · -- the delta that is delivered carries what is stored
          have hu : u.backend = t.backend.apply (t.buildBatch out) := by
            rcases p3Finalize_ok hp3 with ⟨m', hp, r, pl, -, -, rfl⟩
            rfl
          rw [heq, stream_deliver, world_deliver, held_snoc]
          change (t.deltaOf p out priors).ops.foldl _ (held w.stream) = u.backend.objects
          rw [hheld, ← backend_of_prepares hcap.prepares, held_batch hpriors, hu]
        · -- a batch that is stored and not announced leaves the log behind
          refine absurd ?_ hlock.not_behind
          have hcounters := finalize_counters w.world.types s₁ t out
          have hu : finalState (p3Finalize (captured w.world.types s₁ t out)
              (applyBatch (captured w.world.types s₁ t out).batch
                (t.settle w.world.types))) = u := by
            rw [hp3]
            rfl
          rw [hu] at hcounters
          have hnext := nextTid_of_prepares hcap.prepares
          have hlast := hbefore.inStep.lastTid
          have hwm := hbefore.watermark
          have hcount := hbefore.inStep.nextTid
          change (w.commit p false).Behind
          rw [heq]
          constructor
          · change w.consumer.watermark + 1 < u.alloc.nextTid
            omega
          · change w.consumer.watermark + 1 < u.backend.marks.nextTid
            omega
      · have he : ∀ p fault, e ≠ .act p (.commit fault) :=
          fun p fault heq => hcommit ⟨p, fault, heq⟩
        rcases step_log (w := w) he with ⟨hworld, -, hstream⟩
        rw [hstream, hworld, hheld]
        rcases World.step_backend w.world e with hsame | ⟨p, s₁, m, out, t, heq, -⟩
        · rw [hsame]
        · exact absurd heq (he p false)

/-- Every record of a run is filed under a row with a name for each of its values. -/
theorem run_filedAs (types : Types) (attached : Bool) (events : List Event) :
    ∀ oid rec, ((begin types attached).run events).world.store.backend.objects.get? oid = some rec →
      ∃ c names, ((begin types attached).run events).world.store.backend.FiledAs rec c names := by
  induction events using List.reverseRecOn with
  | nil => exact fun oid rec hrec => nomatch hrec
  | append_singleton events e ih =>
      rcases run_coherent types attached events with ⟨kind, hc⟩
      rw [run, List.foldl_append]
      intro oid rec hrec
      change (((begin types attached).run events).step e).world.store.backend.objects.get? oid =
        some rec at hrec
      change ∃ c names,
        (((begin types attached).run events).step e).world.store.backend.FiledAs rec c names
      rcases step_storage _ e with hsame | ⟨p, s₁, m, out, t, rfl, hcap, hstored⟩
      · rw [hsame] at hrec ⊢
        exact ih oid rec hrec
      · have hbackend := backend_of_prepares hcap.prepares
        rw [hstored] at hrec ⊢
        rcases (Backend.get?_apply_eq_some hrec).2 with ⟨hnew, -⟩ | ⟨-, hkept⟩
        · rcases stored_filedAs (hcap.coherent hc.store) (hcap.batchOk hc.store) hnew with
            ⟨-, c, hfiled⟩
          exact ⟨c, _, hfiled⟩
        · rw [hbackend] at hkept
          rcases ih oid rec hkept with ⟨c, names, hrow, hlen⟩
          refine ⟨c, names, List.mem_append_left _ ?_, hlen⟩
          rw [hbackend]
          exact hrow

/-- A stream that has reached storage is in lock step with it, holds what it
    holds, and storage has every record filed. -/
theorem stream_holds_storage (types : Types) (events : List Event) :
    let w := (begin types true).run events
    let b := w.world.store.backend
    w.consumer.watermark + 1 = b.marks.nextTid →
      Applier.Served w.stream w.consumer ∧ w.consumer.Mirrors b ∧ held w.stream = b.objects ∧
        b.Filing := by
  intro w b hsame
  have hserves := run_served types events
  have hlock : w.Lockstep := by
    rcases hserves.state with h | hb
    · exact h
    · have habove : w.consumer.watermark + 1 < b.marks.nextTid := hb.2
      omega
  rcases run_coherent types true events with ⟨kind, hc⟩
  have hall : w.accepted = w.stream := List.take_of_length_le hlock.length.le
  exact ⟨hall ▸ hserves.served, hlock.mirrors, run_held types events hlock,
    hc.store.storage.filed, hlock.inStep.stored, run_filedAs types true events⟩

end Watched

end DataCrystal
