import DataCrystal.Converge
import DataCrystal.Shown

/-!
# Syncs That Fail

The storage of a follower advances frame by frame, and what the store keeps in
memory is derived again once, behind the last frame. An exception in between
leaves the memory where it was: the watermark, the shapes, the root and the
indexes are those of the storage before the sync, and records are read from the
storage as it is now.

A contribution is another way to fall out of step. Once the coordinator has taken
what was buffered the buffers are cleared, and the sync behind it brings the change
back. If that sync raises, or brings nothing, the changed instances stay registered
and are buffered no more, so they are read in the place of their records.

`Reflects` says that the memory of a store goes with its storage, its registered
instances included. Reading and buffering keep it, and so do a sync and a
contribution that complete. A sync that fails keeps it if and only if nothing was
applied before the frame that failed. The next sync that brings something derives
the memory again, whatever the last one left.

## Main definitions

* `Store.Derived`: What the memory derives from the storage goes with it.
* `Store.Reflects`: So do the registered instances.
* `Follower.step`: A follower under operations, syncs and contributions.
* `Follower.Whole`: A step that completes, or fails before it applies anything.

## Theorems

* `edit_derived`: Operations that only buffer keep what is derived.
* `step_whole`, `step_follows`: What a step keeps, whole or not.
* `failed_sync`: When a failed sync keeps the memory with the storage.
-/

namespace DataCrystal

open Store

namespace Store

variable {types : Types} {p : Principal} {s t : Store}

/-- The root is the one of storage, or a new holder that is buffered, as it is
    between an assignment of the root and its commit. -/
def RootPinned (s : Store) : Prop :=
  s.rootOid = s.backend.marks.rootOid ∨ ∃ oid o, s.rootOid = some oid ∧ s.new.get? oid = some o

/-- What the memory of a store derives from its storage goes with it: the watermark,
    the shapes, the root, the indexes as a rebuild would make them, and nothing of a
    sidecar. -/
structure Derived (types : Types) (s : Store) : Prop where
  lastTid : s.lastTid + 1 = s.backend.marks.nextTid
  typeRows : s.typeRows = s.backend.types
  rootOid : s.RootPinned
  allocOid : s.backend.marks.nextOid ≤ s.alloc.nextOid
  allocCid : s.backend.marks.nextCid ≤ s.alloc.nextCid
  built : ∀ c ci, s.index.byCls.get? c = some ci →
    buildClassIndexes (types.info c) (s.lineageFor c) s.backend.scanType = .ok ci
  reverse : ∀ rev, s.index.reverse = some rev →
    rev = IndexManager.buildReverse s.backend (s.typeRows.map Prod.fst)
  noBlobs : s.index.cacheBlobs = none
  noReverseBlob : s.index.reverseBlob = none

/-- The memory of a store goes with its storage: what is derived, and what the
    registered instances show. A write that is buffered is not on storage yet. -/
structure Reflects (types : Types) (s : Store) : Prop extends Derived types s where
  shown : ∀ k n, s.registry.get? k = some n → s.buffers k = false → s.Shows types k n

/-- Instances that are accounted for show their records unless they are buffered. -/
theorem Derived.reflects (h : Derived types s) (hs : Showing types s) : Reflects types s := by
  refine ⟨h, fun k n hk hbuf => ?_⟩
  have hn := hs.registered k n hk
  by_cases hclean : (s.heap.get n).state = .clean
  · exact (hn.shows hclean).2
  · rw [hn.buffered hclean] at hbuf
    cases hbuf

/-- What an operation leaves of the root and the ids. -/
theorem edit_kept (he : Edit types p s t) : (s.RootPinned → t.RootPinned) ∧
    s.alloc.nextOid ≤ t.alloc.nextOid ∧ t.alloc.nextCid = s.alloc.nextCid := by
  -- Most edits touch none of the four fields that the statement reads.
  have hsame : ∀ u : Store, u.rootOid = s.rootOid → u.new = s.new → u.backend = s.backend →
      u.alloc = s.alloc → (s.RootPinned → u.RootPinned) ∧ s.alloc.nextOid ≤ u.alloc.nextOid ∧
        u.alloc.nextCid = s.alloc.nextCid := by
    intro u hroot hnew hb halloc
    unfold RootPinned
    rw [hroot, hnew, hb, halloc]
    exact ⟨id, le_rfl, rfl⟩
  cases he with
  | grow hg =>
      cases hg with
      | adopt o hsize hoid huid =>
          refine ⟨fun h => ?_, Nat.le_succ _, rfl⟩
          rcases h with hroot | ⟨oid, n, hroot, hnew⟩
          · exact Or.inl hroot
          · refine Or.inr ⟨oid, if oid = s.alloc.nextOid then o else n, hroot, ?_⟩
            change (s.new.set s.alloc.nextOid o).get? oid = _
            rw [Dict.get?_set]
            by_cases heq : oid = s.alloc.nextOid
            · rw [if_pos heq, if_pos heq]
            · rw [if_neg heq, if_neg heq, hnew]
      | stamp => exact hsame _ rfl rfl rfl rfl
  | load hl =>
      cases hl with
      | shell => exact hsame _ rfl rfl rfl rfl
      | fill => exact hsame _ rfl rfl rfl rfl
      | unregister o =>
          unfold unregister
          split <;> exact hsame _ rfl rfl rfl rfl
  | firstWrite o hstate =>
      unfold onFirstWrite
      split <;> exact hsame _ rfl rfl rfl rfl
  | deleteHolder oid c f key ci hci hheld hstate hroot =>
      cases hr : s.registry.get? oid <;> exact hsame _ rfl rfl rfl rfl
  | cancel o oid hstate hoid hroot =>
      refine ⟨fun h => ?_, le_rfl, rfl⟩
      rcases h with hkept | ⟨oid', n, hroot', hnew⟩
      · exact Or.inl hkept
      · -- the root is not what was taken back
        have hne : oid' ≠ oid := fun heq => hroot (heq ▸ hroot')
        exact Or.inr ⟨oid', n, hroot', (Dict.get?_erase_ne _ hne).trans hnew⟩
  | assignRoot o oid hnew hoid hcls =>
      exact ⟨fun _ => Or.inr ⟨oid, o, hoid, hnew⟩, le_rfl, rfl⟩
  | _ => exact hsame _ rfl rfl rfl rfl

/-- Operations that only buffer keep what is derived from storage: an index is built
    from the storage when it is first used. -/
theorem edit_derived (he : Edit types p s t) (h : Derived types s) : Derived types t := by
  rcases edit_kept he with ⟨hroot, hoid, hcid⟩
  rcases edit_kinds he with hsame | ⟨m, hmade, rfl⟩ | rfl
  · refine ⟨?_, ?_, hroot h.rootOid, ?_, ?_, ?_, ?_, ?_, ?_⟩
    · rw [hsame.lastTid, hsame.backend]
      exact h.lastTid
    · rw [hsame.typeRows, hsame.backend]
      exact h.typeRows
    · rw [hsame.backend]
      exact h.allocOid.trans hoid
    · rw [hsame.backend, hcid]
      exact h.allocCid
    · unfold lineageFor
      rw [hsame.index, hsame.backend, hsame.typeRows]
      exact h.built
    · rw [hsame.index, hsame.backend, hsame.typeRows]
      exact h.reverse
    · rw [hsame.index]
      exact h.noBlobs
    · rw [hsame.index]
      exact h.noReverseBlob
  · cases hmade with
    | loaded c ci hnone hload =>
        -- A follower has no blobs to load.
        unfold IndexManager.cached at hload
        rw [h.noBlobs] at hload
        cases hload
    | built c ci hnone hload hbuild =>
        refine ⟨h.lastTid, h.typeRows, h.rootOid, h.allocOid, h.allocCid, fun c' ci' hget => ?_,
          h.reverse, h.noBlobs, h.noReverseBlob⟩
        change (s.index.byCls.set c ci).get? c' = some ci' at hget
        rw [Dict.get?_set] at hget
        by_cases heq : c' = c
        · rw [if_pos heq, Option.some.injEq] at hget
          rw [← hget, heq]
          exact hbuild
        · rw [if_neg heq] at hget
          exact h.built c' ci' hget
  · -- without a cached reverse blob the reverse index is there already or built from the rows
    have hmade : s.index.ensureReverse s.backend (s.typeRows.map Prod.fst) = s.index ∨
        s.index.ensureReverse s.backend (s.typeRows.map Prod.fst) = { s.index with
          reverse := some (IndexManager.buildReverse s.backend (s.typeRows.map Prod.fst))
          reverseRefs := IndexManager.buildReverse s.backend (s.typeRows.map Prod.fst)
          reverseBlob := none } := by
      unfold IndexManager.ensureReverse
      by_cases hsome : s.index.reverse.isSome = true
      · exact Or.inl (if_pos hsome)
      · rw [if_neg hsome, h.noReverseBlob]
        exact Or.inr rfl
    rcases hmade with heq | heq
    · rw [heq]
      exact h
    · rw [heq]
      refine ⟨h.lastTid, h.typeRows, h.rootOid, h.allocOid, h.allocCid, h.built, fun rev hrev => ?_,
        h.noBlobs, rfl⟩
      exact (Option.some.inj hrev).symm

/-- A store that has just read its storage goes with it. -/
theorem refresh_reflects (types : Types) (s : Store) (hpos : 0 < s.backend.marks.nextTid) :
    Reflects types s.refresh := by
  refine ⟨⟨?_, rfl, Or.inl rfl, le_rfl, le_rfl, fun c ci h => ?_, fun rev h => ?_, rfl, rfl⟩,
    fun k n hk => ?_⟩
  · change s.backend.marks.nextTid - 1 + 1 = s.backend.marks.nextTid
    omega
  · cases h
  · cases h
  · cases hk

/-- The root of a store without buffered writes. -/
theorem Derived.reread (h : Derived types s) (hidle : s.unbuffered = true) : s.Reread := by
  refine ⟨h.allocOid, h.allocCid, ?_, ?_, h.typeRows⟩
  · have hlast := h.lastTid
    omega
  · rcases h.rootOid with hroot | ⟨oid, o, -, hnew⟩
    · exact hroot
    · unfold unbuffered at hidle
      rw [Bool.and_eq_true, Bool.and_eq_true, List.isEmpty_iff] at hidle
      have hempty : s.new = Dict.empty := Dict.entries_injective hidle.1.1
      rw [hempty] at hnew
      cases hnew

/-- There is something a follower can send. -/
def sends (s : Store) : Bool :=
  s.deleted.entries.isEmpty && !(s.new.entries.isEmpty && s.dirty.entries.isEmpty)

/-- A contribution syncs with the buffers cleared, or does nothing. -/
theorem contribute_final (m : Medium) (answer : Option (Option Nat)) (frames : List Frame)
    (s : Store) : finalState (contribute m answer frames s) =
      if s.sends && answer.isSome then finalState (resync m frames s.contributed) else s := by
  unfold contribute sends
  rw [bind_run_ok (get_run s)]
  by_cases hdeleted : s.deleted.entries.isEmpty = true
  · rw [hdeleted]
    by_cases hidle : (s.new.entries.isEmpty && s.dirty.entries.isEmpty) = true
    · rw [hidle]
      rfl
    · rw [Bool.eq_false_iff.mpr hidle]
      cases answer with
      | none => rfl
      | some applied =>
          simp only [Bool.not_true, Bool.not_false, Bool.false_eq_true, if_false, Bool.and_true,
            Option.isSome_some, if_true, bind_run_ok (modify_run _ s), bind_run]
          unfold EStateM.adaptExcept
          cases resync m frames s.contributed <;> rfl
  · rw [Bool.eq_false_iff.mpr hdeleted]
    rfl

end Store

/-- An event of a follower. Its commits are contributions, which the coordinator
    rejects or answers. -/
inductive FollowerEvent
  | act (p : Principal) (op : Op)
  | sync (frames : List Frame)
  | contribute (answer : Option (Option Nat)) (frames : List Frame)

/-- An operation but a commit, or frames of a stream, well or badly: a frame may be
    missing, cut or come twice, but no frame is made up. -/
def FollowerEvent.From (ds : List Delta) : FollowerEvent → Prop
  | .act _ op => op.isEdit = true ∨ op = .discard
  | .sync frames => ∀ f ∈ frames, f.From ds
  | .contribute _ frames => ∀ f ∈ frames, f.From ds

namespace Follower

/-- The store of a follower behind an event. -/
def step (types : Types) (m : Medium) (s : Store) : FollowerEvent → Store
  | .act p op => finalState (op.run types p s)
  | .sync frames => finalState (Store.resync m frames s)
  | .contribute answer frames => finalState (Store.contribute m answer frames s)

/-- An operation that drops no write of another instance, a sync that fits or fails
    before a delta is applied, and a contribution whose sync fits and brings
    something. -/
def Whole (ds : List Delta) (s : Store) : FollowerEvent → Prop
  | .act _ op => op.KeepsWrites s
  | .sync frames => Fits ds s.lastTid frames ∨ advances s.lastTid frames = false
  | .contribute answer frames => (s.sends && answer.isSome) = true →
    Fits ds s.lastTid frames ∧ s.lastTid < reach s.lastTid frames

end Follower

variable {ds ds₁ : List Delta} {a aₙ : Applier} {m : Medium} {types : Types} {frames : List Frame}
  {s : Store}

/-- A catch-up that applies nothing leaves the storage as it was, and one that
    raises behind a delta leaves it ahead. -/
theorem applyCatchup_cases (hds : Applier.Served ds aₙ) (hpre : ds₁ <+: ds)
    (h : Replica ds₁ a s.backend) (hfrom : ∀ f ∈ frames, f.From ds) :
    (advances a.watermark frames = false →
        applyCatchup m frames s.backend = .ok a.watermark s.backend ∨
          ∃ e, applyCatchup m frames s.backend = .error e s.backend) ∧
      ∀ e b, applyCatchup m frames s.backend = .error e b → ∃ ds₂ a₂, ds₂ <+: ds ∧
        Replica ds₂ a₂ b ∧ (advances a.watermark frames = true → a.watermark < a₂.watermark) := by
  have hat := CatchUp.start_at hpre h
  have hwm : (CatchUp.start s.backend).watermark = a.watermark := hat.watermark
  unfold applyCatchup
  rcases catchUps_cases (m := m) hds frames hfrom hat with
    ⟨ds₂, a₂, s', hrun, -, -, -, hstay⟩ | ⟨e, ds₂, a₂, s₁, s', hrun, hat₂, hb, -, hstay, hmove⟩
  · rw [hwm] at hstay
    refine ⟨fun hno => Or.inl ?_, fun e b herr => ?_⟩
    · simp only [zoom, bind_run_ok hrun, bind_run_ok (get_run s'), pure_run]
      rw [hstay hno, hwm]
      rfl
    · simp only [zoom, bind_run_ok hrun, bind_run_ok (get_run s'), pure_run] at herr
      cases herr
  · rw [hwm] at hstay hmove
    refine ⟨fun hno => Or.inr ⟨e, ?_⟩, fun e' b herr => ?_⟩
    · simp only [zoom, bind_run_error hrun]
      rw [hb, hstay hno]
      rfl
    · simp only [zoom, bind_run_error hrun] at herr
      cases herr
      rw [hb]
      exact ⟨ds₂, a₂, hat₂.before, hat₂.replica, hat₂.watermark ▸ hmove⟩

/-- A sync that applies nothing changes nothing. -/
theorem resync_stays (hds : Applier.Served ds aₙ) (hpre : ds₁ <+: ds)
    (h : Replica ds₁ a s.backend) (hlast : s.lastTid = a.watermark)
    (hfrom : ∀ f ∈ frames, f.From ds) (hno : advances s.lastTid frames = false) :
    finalState (Store.resync m frames s) = s := by
  by_cases hidle : s.unbuffered = true
  · rw [resync_run hidle]
    rcases (applyCatchup_cases (m := m) hds hpre h hfrom).1 (hlast ▸ hno) with hrun | ⟨e, hrun⟩
    · rw [hrun]
      dsimp only
      rw [if_neg (by omega)]
      rfl
    · rw [hrun]
      rfl
  · rw [resync_busy hidle]
    rfl

/-- What a follower knows is at most what its storage holds, a part of the stream.
    Storage may be ahead, namely behind a sync that failed on the way. -/
structure Follows (ds : List Delta) (s : Store) : Prop where
  replica : ReplicaIn ds s.backend
  lastTid : s.lastTid + 1 ≤ s.backend.marks.nextTid

/-- A catch-up takes no transaction out of the storage. -/
theorem applyCatchup_nextTid (hds : Applier.Served ds aₙ) {b : Backend} (h : ReplicaIn ds b)
    (hfrom : ∀ f ∈ frames, f.From ds) :
    b.marks.nextTid ≤ (finalState (applyCatchup m frames b)).marks.nextTid := by
  rcases h with ⟨ds₁, a, hpre, h⟩
  have hat := CatchUp.start_at hpre h
  unfold applyCatchup
  rw [finalState_zoom, h.nextTid, ← hat.watermark]
  rcases catchUps_cases (m := m) hds frames hfrom hat with
    ⟨ds₂, a₂, s', hrun, hat₂, hle, -⟩ | ⟨e, ds₂, a₂, s₁, s', hrun, hat₂, hb, hle, -⟩
  · rw [bind_run_ok hrun]
    change _ ≤ s'.backend.marks.nextTid
    rw [hat₂.replica.nextTid, ← hat₂.watermark]
    omega
  · rw [bind_run_error hrun, finalState_error, hb, hat₂.replica.nextTid, ← hat₂.watermark]
    omega

theorem resync_follows (hds : Applier.Served ds aₙ) (h : Follows ds s)
    (hfrom : ∀ f ∈ frames, f.From ds) : Follows ds (finalState (Store.resync m frames s)) := by
  refine ⟨resync_replica hds hfrom h.replica, ?_⟩
  by_cases hidle : s.unbuffered = true
  · have hgrows := applyCatchup_nextTid (m := m) hds h.replica hfrom
    have hlast := h.lastTid
    rw [resync_run hidle]
    cases hrun : applyCatchup m frames s.backend with
    | error e b =>
        rw [hrun, finalState_error] at hgrows
        exact hlast.trans hgrows
    | ok n b =>
        rw [hrun, finalState_ok] at hgrows
        dsimp only
        by_cases hlt : s.lastTid < n
        · rw [if_pos hlt, finalState_ok]
          change b.marks.nextTid - 1 + 1 ≤ b.marks.nextTid
          omega
        · rw [if_neg hlt, finalState_ok]
          exact hlast.trans hgrows
  · rw [resync_busy hidle]
    exact h.lastTid

theorem contributed_follows (h : Follows ds s) : Follows ds s.contributed := by
  unfold contributed
  split
  · exact ⟨h.replica, h.lastTid⟩
  · exact h

/-- Whatever a follower does, whole or not, its storage is a part of the stream and
    its memory is not ahead of it. -/
theorem step_follows (hds : Applier.Served ds aₙ) {e : FollowerEvent} (h : Follows ds s)
    (hfrom : e.From ds) : Follows ds (Follower.step types m s e) := by
  cases e with
  | sync frames => exact resync_follows hds h hfrom
  | contribute answer frames =>
      change Follows ds (finalState (Store.contribute m answer frames s))
      rw [contribute_final]
      split
      · exact resync_follows hds (contributed_follows h) hfrom
      · exact h
  | act p op =>
      rcases hfrom with hop | rfl
      · have hmoves := moves_op types p op hop s
        refine reflTransGen_invariant (I := Follows ds) (fun u v hstep hu => ?_) hmoves h
        rcases edit_kinds hstep with hsame | ⟨_, -, rfl⟩ | rfl
        · refine ⟨hsame.backend ▸ hu.replica, ?_⟩
          rw [hsame.lastTid, hsame.backend]
          exact hu.lastTid
        · exact ⟨hu.replica, hu.lastTid⟩
        · exact ⟨hu.replica, hu.lastTid⟩
      · have hb : s.discard.backend = s.backend := backend_discard s
        have hpos := h.lastTid
        refine ⟨?_, ?_⟩
        · change ReplicaIn ds s.discard.backend
          rw [hb]
          exact h.replica
        · change s.discard.backend.marks.nextTid - 1 + 1 ≤ s.discard.backend.marks.nextTid
          rw [hb]
          omega

/-- A follower that is only told what the coordinator says follows it all along. -/
theorem run_follows (hds : Applier.Served ds aₙ) (h : Follows ds s) {es : List FollowerEvent}
    (hes : ∀ e ∈ es, e.From ds) : Follows ds (es.foldl (Follower.step types m) s) := by
  induction es generalizing s with
  | nil => exact h
  | cons e es ih =>
      exact ih (step_follows hds h (hes e List.mem_cons_self)) fun e' he' =>
        hes e' (List.mem_cons_of_mem e he')

/-- What a follower has in memory goes with its storage, and its registered
    instances are accounted for. -/
def InStep (types : Types) (s : Store) : Prop := s.Derived types ∧ s.Showing types

theorem refresh_inStep (u : Store) (hpos : 0 < u.backend.marks.nextTid)
    (hbounded : ∀ o k, (u.heap.get o).oid = some k → o < u.heap.size) :
    InStep types u.refresh :=
  ⟨(refresh_reflects types u hpos).toDerived, refresh_showing hbounded⟩

/-- A sync that fits and brings something reads the storage again; one that brings
    nothing changes nothing. -/
theorem resync_inStep (hds : Applier.Served ds aₙ) (h : Follows ds s)
    (hbounded : ∀ o k, (s.heap.get o).oid = some k → o < s.heap.size)
    (hlast : s.lastTid + 1 = s.backend.marks.nextTid) (hidle : s.unbuffered = true)
    (hfits : Fits ds s.lastTid frames) :
    finalState (Store.resync m frames s) = s ∧ reach s.lastTid frames = s.lastTid ∨
      InStep types (finalState (Store.resync m frames s)) := by
  rcases h.replica with ⟨ds₁, a, hpre, hr⟩
  have hnow : s.lastTid = a.watermark := by
    have hnext := hr.nextTid
    omega
  rcases resync_reaches (m := m) hds hpre hr hnow.le hidle (hnow ▸ hfits) with
    ⟨ds₂, a₂, t, hrun, -, h₂, -, ⟨rfl, -, hstay⟩ | ⟨-, b, rfl⟩⟩
  · rw [hrun, hnow]
    exact Or.inl ⟨rfl, hstay⟩
  · rw [hrun]
    refine Or.inr (refresh_inStep { s with backend := b } ?_ hbounded)
    have htid := h₂.nextTid
    change b.marks.nextTid = _ at htid
    change 0 < b.marks.nextTid
    omega

/-- A whole step of a follower keeps its memory with its storage. -/
theorem step_whole (hds : Applier.Served ds aₙ) {e : FollowerEvent} (hf : Follows ds s)
    (h : InStep types s) (hfrom : e.From ds) (he : Follower.Whole ds s e) :
    InStep types (Follower.step types m s e) := by
  have hlast := h.1.lastTid
  cases e with
  | act p op =>
      rcases hfrom with hop | rfl
      · have hderived := reflTransGen_invariant (I := Derived types)
          -- An edit moves the buffers and the heap, and storage derives what it did.
          (fun _ _ hst hs => edit_derived hst hs) (moves_op types p op hop s) h.1
        exact ⟨hderived, op_showing h.2 op hop he⟩
      -- A discard reads everything again.
      · have hb : s.discard.backend = s.backend := backend_discard s
        refine ⟨(refresh_reflects types _ ?_).toDerived, discard_showing h.2⟩
        change 0 < s.discard.backend.marks.nextTid
        rw [hb]
        omega
  | sync frames =>
      change InStep types (finalState (Store.resync m frames s))
      by_cases hidle : s.unbuffered = true
      -- The pull applies a frame, or none of them is due.
      · rcases he with hfits | hno
        · rcases resync_inStep (m := m) hds hf h.2.bounded hlast hidle hfits with ⟨hsame, -⟩ | hin
          · rw [hsame]
            exact h
          · exact hin
        · rcases hf.replica with ⟨ds₁, a, hpre, hr⟩
          have hnext := hr.nextTid
          rw [resync_stays hds hpre hr (by omega) hfrom hno]
          exact h
      -- Something is buffered: the sync is refused.
      · rw [resync_busy hidle]
        exact h
  | contribute answer frames =>
      change InStep types (finalState (Store.contribute m answer frames s))
      rw [contribute_final]
      by_cases hsends : (s.sends && answer.isSome) = true
      · -- the write buffers are cleared before the pull, so the pull is never refused
        rw [if_pos hsends]
        rcases he hsends with ⟨hfits, hreach⟩
        rw [Bool.and_eq_true, sends, Bool.and_eq_true] at hsends
        have hcleared : s.contributed = { s with new := Dict.empty, dirty := Dict.empty } :=
          if_pos hsends.1.1
        have hidle : s.contributed.unbuffered = true := by
          rw [hcleared, unbuffered, hsends.1.1]
          rfl
        have hpulled : finalState (Store.resync m frames s.contributed) = s.contributed ∧
              reach s.contributed.lastTid frames = s.contributed.lastTid ∨
            InStep types (finalState (Store.resync m frames s.contributed)) :=
          resync_inStep hds (contributed_follows hf) (by rw [hcleared]; exact h.2.bounded)
            (by rw [hcleared]; exact hlast) hidle (by rw [hcleared]; exact hfits)
        -- A pull that stays is against the condition, as the answer was to be in it.
        rcases hpulled with ⟨-, hstay⟩ | hin
        · rw [hcleared] at hstay
          exact absurd hstay (Nat.ne_of_gt hreach)
        · exact hin
      · rw [if_neg hsends]
        exact h

/-- A run of whole steps keeps a follower's memory with its storage. -/
theorem run_whole (hds : Applier.Served ds aₙ) (hf : Follows ds s) (h : InStep types s)
    {es : List FollowerEvent} (hes : ∀ e ∈ es, e.From ds)
    (hwhole : EachStep (Follower.step types m) (Follower.Whole ds) s es) :
    InStep types (es.foldl (Follower.step types m) s) := by
  induction es generalizing s with
  | nil => exact h
  | cons e es ih =>
      have he := hes e List.mem_cons_self
      exact ih (step_follows hds hf he) (step_whole hds hf h he hwhole.1)
        (fun e' he' => hes e' (List.mem_cons_of_mem e he')) hwhole.2

/-- The storage of a follower that has opened on an empty one. -/
theorem boot_inStep (types : Types) {b : Backend} (h : Replica ds₁ a b) :
    InStep types (Store.boot none none b) := by
  have hpos : 0 < b.marks.nextTid := by
    rw [h.nextTid]
    omega
  refine ⟨⟨?_, rfl, Or.inl rfl, le_rfl, le_rfl, fun c ci hget => ?_, fun rev hrev => ?_, rfl, rfl⟩,
    boot_showing types b⟩
  · change b.marks.nextTid - 1 + 1 = b.marks.nextTid
    omega
  · cases hget
  · cases hrev

/-- A sync that raises changes the storage at most, and the storage only if it
    applied a delta. -/
theorem resync_raises (hds : Applier.Served ds aₙ) (h : Follows ds s) (hidle : s.unbuffered = true)
    (hfrom : ∀ f ∈ frames, f.From ds) {e : SyncErr} {t : Store}
    (herr : Store.resync m frames s = .error e t) :
    t.unbuffered = true ∧ t.lastTid = s.lastTid ∧
      (t.lastTid + 1 = t.backend.marks.nextTid → t = s ∧ advances s.lastTid frames = false) := by
  rcases h.replica with ⟨ds₁, a, hpre, hr⟩
  have hlast := h.lastTid
  have hnext := hr.nextTid
  have herr' := herr
  rw [resync_run hidle] at herr
  cases hcatch : applyCatchup m frames s.backend with
  | ok n b =>
      rw [hcatch] at herr
      dsimp only at herr
      split at herr <;> cases herr
  | error e' b =>
      rw [hcatch] at herr
      cases herr
      refine ⟨hidle, rfl, fun hnow => ?_⟩
      -- The mark of the storage is where it was, so no frame was applied before the error.
      have hgrows := applyCatchup_nextTid (m := m) hds h.replica hfrom
      rw [hcatch, finalState_error] at hgrows
      change s.lastTid + 1 = b.marks.nextTid at hnow
      have heq : s.lastTid = a.watermark := by omega
      have hno : advances s.lastTid frames = false := by
        rcases (applyCatchup_cases (m := m) hds hpre hr hfrom).2 e' b hcatch with
          ⟨ds₂, a₂, -, h₂, hmove⟩
        have hnext₂ := h₂.nextTid
        cases hadv : advances s.lastTid frames with
        | false => rfl
        | true =>
            have hlt := hmove (heq ▸ hadv)
            omega
      have hsame := resync_stays (m := m) hds hpre hr heq hfrom hno
      rw [herr', finalState_error] at hsame
      exact ⟨hsame, hno⟩

/-- In every run of a follower whose steps are whole its memory goes with its storage.
    Wherever a follower stands, a sync that fails leaves it so if and only if it did
    before and nothing was applied, and then nothing has changed. A sync behind it
    that fits converges if it brings something or if the memory goes with the storage,
    and it brings something if the one that failed had. -/
theorem failed_sync (coordinator : Types) (events : List Event) (m : Medium) (types : Types)
    (earlier : List Session) (hpath : m = .memory → earlier = [])
    (hearlier : ∀ e ∈ earlier, e.From ((Watched.begin coordinator true).run events).accepted)
    (boot : List Frame) (s₀ : Store) (b₀ : Backend)
    (hopen : openFollower m boot (pathAfter m earlier) = .ok s₀ b₀)
    (hboot : ∀ f ∈ boot, f.From ((Watched.begin coordinator true).run events).accepted)
    (doings : List FollowerEvent)
    (hdoings : ∀ e ∈ doings, e.From ((Watched.begin coordinator true).run events).accepted) :
    let ds := ((Watched.begin coordinator true).run events).accepted
    let s := doings.foldl (Follower.step types m) s₀
    (EachStep (Follower.step types m) (Follower.Whole ds) s₀ doings → s.Reflects types) ∧
      ∀ before, before = s ∨ before = s.contributed → before.unbuffered = true →
        ∀ frames, (∀ f ∈ frames, f.From ds) →
        ∀ e s', Store.resync m frames before = .error e s' →
          (s'.Reflects types ↔ before.Reflects types ∧ advances before.lastTid frames = false) ∧
          (s'.Reflects types → s' = before) ∧
          ∀ later, Fits ds s'.lastTid later → ∃ n t, Store.resync m later s' = .ok n t ∧
            reach s'.lastTid later ≤ n ∧
            (before.Reflects types → advances before.lastTid frames = true → s'.lastTid < n) ∧
            (s'.lastTid < n ∨ s'.Reflects types → Converged ds n t ∧ t.Reflects types) := by
  intro ds s
  have hds : Applier.Served ds _ := (Watched.run_served coordinator events).served
  have hstored := open_final (m := m) hds hboot (pathAfter_replica hds earlier hearlier hpath)
    fun hm => by rw [hpath hm]; rfl
  rw [hopen] at hstored
  have hbooted := open_ok hopen
  subst hbooted
  rcases hstored with ⟨ds₀, a₀, hpre₀, h₀⟩
  have hnext₀ := h₀.nextTid
  have hstart : Follows ds (Store.boot none none b₀) := by
    refine ⟨⟨ds₀, a₀, hpre₀, h₀⟩, ?_⟩
    change b₀.marks.nextTid - 1 + 1 ≤ b₀.marks.nextTid
    change b₀.marks.nextTid = _ at hnext₀
    omega
  have hfollows : Follows ds s := run_follows hds hstart hdoings
  refine ⟨fun hwhole => ?_, ?_⟩
  · have hend := run_whole hds hstart (boot_inStep types h₀) hdoings hwhole
    exact hend.1.reflects hend.2
  · -- the failed call: what it was called on follows the coordinator, contributed or not
    intro before hbefore hidle frames hfrom e s' herr
    have hf : Follows ds before := by
      rcases hbefore with rfl | rfl
      · exact hfollows
      · exact contributed_follows hfollows
    rcases resync_raises hds hf hidle hfrom herr with ⟨hidle', hlast', hnow'⟩
    -- A store that reflects its storage and is offered nothing new is left as it is.
    have hstay : before.Reflects types → advances before.lastTid frames = false → s' = before := by
      intro hreflects hno
      rcases hf.replica with ⟨ds₁, a, hpre, hr⟩
      have hnext := hr.nextTid
      have hlast := hreflects.lastTid
      have hsame := resync_stays (m := m) hds hpre hr (by omega) hfrom hno
      rw [herr] at hsame
      exact hsame
    refine ⟨⟨fun hreflects => ?_, fun hboth => ?_⟩, fun hreflects => ?_, fun later hfits => ?_⟩
    · rcases hnow' hreflects.lastTid with ⟨rfl, hno⟩
      exact ⟨hreflects, hno⟩
    · rw [hstay hboth.1 hboth.2]
      exact hboth.1
    · exact (hnow' hreflects.lastTid).1
    · -- the next call: the storage may be ahead of what the store shows, never behind it
      have hf' : Follows ds s' := by
        have hfinal := resync_follows (m := m) hds hf hfrom
        rw [herr] at hfinal
        exact hfinal
      rcases hf'.replica with ⟨ds₁, a, hpre, hr⟩
      have hnext := hr.nextTid
      have hbehind : s'.lastTid ≤ a.watermark := by
        have hlast := hf'.lastTid
        omega
      rcases resync_reaches (m := m) hds hpre hr hbehind hidle' (hfits.mono hbehind) with
        ⟨ds₂, a₂, t, hdone, hpre₂, h₂, hreached, hend⟩
      have hle := le_reach a.watermark later
      refine ⟨_, t, hdone, reach_mono hbehind later, fun hreflects hadv => ?_, fun hgoes => ?_⟩
      · -- the frames that were applied have moved the storage
        by_contra hnot
        have hlast : s'.lastTid + 1 = s'.backend.marks.nextTid := by omega
        rw [(hnow' hlast).2] at hadv
        cases hadv
      · -- either nothing was applied, and what reflected still does, or the store was refreshed
        have hboth : t.Reread ∧ t.Reflects types := by
          rcases hend with ⟨rfl, hsame, hnothing⟩ | ⟨-, b, rfl⟩
          · have hreflects := hgoes.resolve_left (by omega)
            exact ⟨hreflects.reread hidle', hreflects⟩
          · refine ⟨refresh_reread _, refresh_reflects types _ ?_⟩
            have hstored := h₂.nextTid
            change b.marks.nextTid = _ at hstored
            change 0 < b.marks.nextTid
            omega
        have hconv := h₂.converged hpre₂ hboth.1
        rw [hreached] at hconv
        exact ⟨hconv, hboth.2⟩

/-- A follower in memory that has opened with the first commit of the parts. -/
def partFollower : Store :=
  match openFollower .memory (partFrames.take 1) {} with
  | .ok s _ => s
  | .error _ b => Store.boot none none b

theorem partFollower_opens : ∃ b,
    openFollower .memory (partFrames.take 1) {} = .ok partFollower b := by
  have hok : (outcome (openFollower .memory (partFrames.take 1) {})).isSome = true := by
    decide +kernel
  unfold partFollower
  cases hrun : openFollower .memory (partFrames.take 1) {} with
  | ok s b => exact ⟨b, rfl⟩
  | error e b =>
      rw [hrun] at hok
      cases hok

/-- The follower loads the part and changes it. -/
def editedPart : List FollowerEvent :=
  [.act Watched.partOwner (.load oidBase), .act Watched.partOwner (.setField 0 "code" (.int 5))]

/-- Behind a contribution that brought the second commit, and an answer that does not
    decode at all, the memory of the follower goes with its storage. Where the answer
    to the contribution does not decode, the next sync brings the memory forward. -/
theorem failed_sync_on_parts :
    let s := (editedPart ++ [FollowerEvent.contribute (some (some 2)) partFrames]).foldl
      (Follower.step Watched.partTypes .memory) partFollower
    let before := (editedPart.foldl
      (Follower.step Watched.partTypes .memory) partFollower).contributed
    s.Reflects Watched.partTypes ∧
      (finalState (Store.resync .memory [.malformed] s)).Reflects Watched.partTypes ∧
      ∃ t, Store.resync .memory partFrames
          (finalState (Store.resync .memory [.malformed] before)) = .ok 2 t ∧
        Converged partCoordinator.accepted 2 t ∧ t.Reflects Watched.partTypes := by
  intro s before
  rcases partFollower_opens with ⟨b, hopen⟩
  have hboot : ∀ f ∈ partFrames.take 1, f.From partCoordinator.accepted :=
    Fits.all_from (n := 0) (by decide +kernel)
  have hframes : ∀ f ∈ partFrames, f.From partCoordinator.accepted :=
    Fits.all_from (n := 0) (by decide +kernel)
  have hmalformed : ∀ f ∈ [Frame.malformed], f.From partCoordinator.accepted := by
    intro f hf
    rw [List.mem_singleton] at hf
    subst hf
    exact trivial
  have hchanged : ∀ e ∈ editedPart, e.From partCoordinator.accepted := by
    intro e he
    simp only [editedPart, List.mem_cons, List.not_mem_nil, or_false] at he
    rcases he with rfl | rfl <;> exact Or.inl rfl
  have hsent : ∀ e ∈ editedPart ++ [.contribute (some (some 2)) partFrames],
      e.From partCoordinator.accepted := by
    intro e he
    rcases List.mem_append.mp he with he | he
    · exact hchanged e he
    · rw [List.mem_singleton] at he
      subst he
      exact hframes
  -- Once with the contribution done, once with its buffers cleared and the pull to come.
  have hwhole := failed_sync Watched.partTypes partCommits .memory Watched.partTypes []
    (fun _ => rfl) (fun _ he => absurd he List.not_mem_nil) (partFrames.take 1) partFollower b hopen hboot
    (editedPart ++ [.contribute (some (some 2)) partFrames]) hsent
  have hcut := failed_sync Watched.partTypes partCommits .memory Watched.partTypes []
    (fun _ => rfl) (fun _ he => absurd he List.not_mem_nil) (partFrames.take 1) partFollower b hopen hboot
    editedPart hchanged
  have hreflects : s.Reflects Watched.partTypes :=
    hwhole.1 ⟨trivial, trivial, fun _ => ⟨by decide +kernel, by decide +kernel⟩, trivial⟩
  refine ⟨hreflects, ?_, ?_⟩
  · have hidle : s.unbuffered = true := by decide +kernel
    have herr : (outcome (Store.resync .memory [.malformed] s)).isSome = false := by
      decide +kernel
    cases hrun : Store.resync .memory [.malformed] s with
    | ok n t =>
        rw [hrun] at herr
        cases herr
    | error e s' =>
        exact (hwhole.2 s (Or.inl rfl) hidle _ hmalformed e s' hrun).1.mpr ⟨hreflects, rfl⟩
  · have hidle : before.unbuffered = true := by decide +kernel
    have herr : (outcome (Store.resync .memory [.malformed] before)).isSome = false := by
      decide +kernel
    cases hrun : Store.resync .memory [.malformed] before with
    | ok n t =>
        rw [hrun] at herr
        cases herr
    | error e s' =>
        have hs' : s' = finalState (Store.resync .memory [.malformed] before) := by
          rw [hrun]
          rfl
        have hfits : Fits partCoordinator.accepted s'.lastTid partFrames := by
          rw [hs']
          decide +kernel
        have hanswer : ((outcome (Store.resync .memory partFrames s')).map fun r => r.1) =
            some 2 := by
          rw [hs']
          decide +kernel
        have hbehind : s'.lastTid = 1 := by
          rw [hs']
          decide +kernel
        rcases (hcut.2 before (Or.inr rfl) hidle _ hmalformed e s' hrun).2.2 partFrames hfits with
          ⟨n, t, hdone, -, -, hconv⟩
        have hn : n = 2 := by
          rw [hdone] at hanswer
          exact Option.some.inj hanswer
        subst hn
        exact ⟨t, hdone, hconv (Or.inl (by omega))⟩

/-- A follower whose storage has applied the second commit when the frame behind
    it does not decode: the last transaction it knows is the first, and the record
    it reads is of the second. A follower whose changed part was contributed when the
    answer does not decode: nothing is buffered, the part shows the new value, and its
    record holds the old one. -/
theorem failed_sync_midway :
    let r := Store.resync .memory (partFrames ++ [.malformed]) partFollower
    let u := editedPart.foldl (Follower.step Watched.partTypes .memory) partFollower
    let c := Store.contribute .memory (some (some 2)) [.malformed] u
    (partFollower.unbuffered = true ∧ (r matches .error (.replay .malformed) _) ∧
      (finalState r).lastTid = 1 ∧ (finalState r).backend.marks.nextTid = 3 ∧
      (partFollower.backend.payloadAt (oidBase + 1)).isSome = false ∧
      ((finalState r).backend.payloadAt (oidBase + 1)).isSome = true) ∧
    (c matches .error (.sync (.replay .malformed)) _) ∧
      (finalState c).unbuffered = true ∧ (finalState c).lastTid = 1 ∧
      (finalState c).registry.get? oidBase = some 0 ∧
      ((finalState c).heap.get 0).field "code" = .int 5 ∧
      (finalState c).backend.payloadAt oidBase = some [.int 1] := by
  decide +kernel

end DataCrystal
