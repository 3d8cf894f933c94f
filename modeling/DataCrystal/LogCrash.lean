import DataCrystal.Flushing

/-!
# Delta Logs over Crashes and Failed Flushes

A delta log is what its files say. Whenever a process ends, by a crash in the
middle of a file step or by closing, the next one finds a manifest and reads the
deltas it names, in order, each once, no matter what lies behind the bytes the
manifest counts.

A log that goes on after a failed flush is another matter. The debris of a write
that failed is cut off by opening the log again, not by the next flush, which
appends behind it; and a flush that failed at the manifest has moved the counters
and kept the buffer, so the log holds its last deltas twice. The two hypotheses
under which a failed flush does no harm are exactly about that.

## Main definitions

* `LogDisk.Recoverable`: What a crash may find.
* `Ready`: A log whose operations have all returned.
* `LogEvent.Healthy`, `LogEvent.Spared`: The events of the two theorems.

## Theorems

* `open_ready`: Opening a log.
* `survives_crash`: A log survives any crash.
* `failed_flush`: A log survives a flush that fails early.
-/

namespace DataCrystal

open DeltaLog Folder

variable {c : DeltaCodec} {w : LogWorld} {P : Nat → Bytes → Prop} {genesis floor : Nat}
  {types : List TypeRow} {m : LogManifest} {ds kept rest : List Delta} {data : Folder Nat}

/-- A manifest from which a log recovers some of its deltas: it names the first of
    what was taken in, up to its watermark, and that is not below the floor the run
    has reached. -/
structure Recovers (c : DeltaCodec) (genesis : Nat) (types : List TypeRow) (floor : Nat)
    (data : Folder Nat) (m : LogManifest) (ds : List Delta) : Prop where
  genesisTid : m.genesisTid = genesis
  genesisTypes : m.genesisTypes = types
  floor : floor ≤ m.watermark
  named : ∃ kept rest, ds = kept ++ rest ∧ Named c data.Durable m kept

/-- Both manifests a crash may leave are fit for recovery, the one that is seen and
    the one that is on disk for certain. Which of them a crash leaves is not for the
    log to say. -/
structure LogDisk.Recoverable (c : DeltaCodec) (genesis : Nat) (types : List TypeRow) (floor : Nat)
    (disk : LogDisk) (ds : List Delta) : Prop where
  current : Recovers c genesis types floor disk.data (disk.manifest.current.getD {}) ds
  stable : Recovers c genesis types floor disk.data (disk.manifest.stable.getD {}) ds

/-- A log whose operations have all returned. Its segments are those of the
    manifest, its directory holds no debris, and the manifest is on disk, so a crash
    takes nothing but the buffer. -/
structure Ready (c : DeltaCodec) (w : LogWorld) (kept rest : List Delta) : Prop where
  sound : Logged c w.disk.data.Durable w kept rest
  settled : w.log.segments = w.disk.committed.segments
  clean : w.Clean
  synced : w.disk.manifest.stable = w.disk.manifest.current

theorem Recovers.mono {data' : Folder Nat} (h : Recovers c genesis types floor data m ds)
    (hdata : ∀ n bs, data.Durable n bs → data'.Durable n bs) (more : List Delta) :
    Recovers c genesis types floor data' m (ds ++ more) := by
  rcases h.named with ⟨kept, rest, hds, hnamed⟩
  refine { h with named := ⟨kept, rest ++ more, ?_, hnamed.mono fun _ _ _ hs => hdata _ _ hs.bytes⟩ }
  rw [hds, List.append_assoc]

/-- What a crash leaves is a manifest fit for recovery. -/
theorem LogDisk.Recoverable.crash {disk : LogDisk}
    (h : disk.Recoverable c genesis types floor ds) (wreck : Nat → Option Bytes) (keptNew : Bool) :
    Recovers c genesis types floor (disk.crash wreck keptNew).data
      (disk.crash wreck keptNew).committed ds := by
  have hdata : ∀ n bs, disk.data.Durable n bs → (disk.data.crash wreck).Durable n bs :=
    fun _ _ hd => hd.crash wreck
  unfold LogDisk.committed
  have hcurrent := (h.current.mono hdata [])
  have hstable := (h.stable.mono hdata [])
  rw [List.append_nil] at hcurrent hstable
  cases keptNew with
  | true => exact hcurrent
  | false => exact hstable

section Open

/-- Cutting a segment file works on that file alone. -/
theorem reconcileSegment_other (data : Folder Nat) (seg : Segment) {n : Nat}
    (hn : n ≠ seg.number) : reconcileSegment data seg n = data n := by
  unfold reconcileSegment
  split
  · exact alter_of_ne _ hn
  · rfl

/-- A file that was cut has the length its segment counts. -/
theorem reconcileSegment_length (data : Folder Nat) (seg : Segment)
    (hfile : data seg.number ≠ none) :
    ((reconcileSegment data seg).contents seg.number).length = seg.nbytes := by
  cases hf : data seg.number with
  | none => exact absurd hf hfile
  | some f =>
      unfold reconcileSegment
      rw [hf]
      by_cases hlen : f.bytes.length = seg.nbytes
      · rw [if_neg (by simpa using hlen)]
        unfold Folder.contents
        rw [hf]
        exact hlen
      · rw [if_pos (by simpa using hlen)]
        unfold Folder.contents Folder.truncate
        rw [alter_self, hf]
        change (f.bytes.take seg.nbytes ++ List.replicate _ 0).length = seg.nbytes
        rw [List.length_append, List.length_take, List.length_replicate]
        omega

theorem reconcileSegment_none (data : Folder Nat) (seg : Segment) (n : Nat) :
    reconcileSegment data seg n = none ↔ data n = none := by
  by_cases hn : n = seg.number
  · unfold reconcileSegment
    split
    · rw [hn, Folder.truncate, alter_self, Option.map_eq_none_iff]
    · exact Iff.rfl
  · rw [reconcileSegment_other data seg hn]

/-- Once a file is cut, cutting the others leaves it alone. -/
theorem foldl_reconcile_other (segs : List Segment) {n : Nat} : ∀ data : Folder Nat,
    n ∉ segs.map Segment.number → segs.foldl reconcileSegment data n = data n := by
  induction segs with
  | nil => exact fun _ _ => rfl
  | cons seg segs ih =>
      intro data hn
      rw [List.map_cons, List.mem_cons, not_or] at hn
      rw [List.foldl_cons, ih _ hn.2, reconcileSegment_other data seg hn.1]

/-- Cutting all segments leaves each with the length it counts. -/
theorem foldl_reconcile_length (segs : List Segment) : ∀ data : Folder Nat,
    (segs.map Segment.number).Pairwise (· < ·) → (∀ seg ∈ segs, data seg.number ≠ none) →
      ∀ seg ∈ segs, ((segs.foldl reconcileSegment data).contents seg.number).length =
        seg.nbytes := by
  induction segs with
  | nil => exact fun _ _ _ seg hseg => absurd hseg List.not_mem_nil
  | cons s segs ih =>
      intro data hordered hfiles seg hseg
      rw [List.map_cons, List.pairwise_cons] at hordered
      rw [List.foldl_cons]
      rcases List.mem_cons.mp hseg with rfl | hseg
      · -- The later segments have higher numbers.
        have hlater : seg.number ∉ segs.map Segment.number := by
          intro hmem
          have hlt := hordered.1 _ hmem
          omega
        unfold Folder.contents
        rw [foldl_reconcile_other segs _ hlater]
        exact reconcileSegment_length data seg (hfiles seg List.mem_cons_self)
      · refine ih _ hordered.2 (fun s' hs' => ?_) seg hseg
        rw [Ne, reconcileSegment_none]
        exact hfiles s' (List.mem_cons_of_mem s hs')

/-- What may be asked of a segment file, seen or on disk: opening a log keeps it. -/
structure FileFact (K : Folder Nat → Nat → Bytes → Prop) : Prop where
  file : ∀ {data n bs}, K data n bs → data n ≠ none
  cut : ∀ {data n bs} (seg : Segment), K data n bs → (n = seg.number → bs.length ≤ seg.nbytes) →
    K (reconcileSegment data seg) n bs
  keep : ∀ {data n bs names}, K data n bs → n ∈ names → K (keepOnly names data) n bs

theorem shows_fileFact : FileFact Folder.Shows where
  file h hnone := by
    rcases h with ⟨f, hf, -⟩
    rw [hnone] at hf
    cases hf
  cut seg h hn := by
    unfold reconcileSegment
    split
    · exact h.truncate hn
    · exact h
  keep h hn := h.keepOnly hn

theorem durable_fileFact : FileFact Folder.Durable where
  file h hnone := by
    rcases h with ⟨f, hf, -⟩
    rw [hnone] at hf
    cases hf
  cut seg h hn := by
    unfold reconcileSegment
    split
    · exact h.truncate hn
    · exact h
  keep h hn := h.keepOnly hn

variable {K : Folder Nat → Nat → Bytes → Prop}

/-- Numbers that ascend tell segments apart. -/
theorem segment_of_number {segs : List Segment}
    (hordered : (segs.map Segment.number).Pairwise (· < ·)) {seg seg' : Segment}
    (hseg : seg ∈ segs) (hseg' : seg' ∈ segs) (hnumber : seg.number = seg'.number) : seg = seg' := by
  have hnodup : (segs.map Segment.number).Nodup := hordered.imp fun hlt => Nat.ne_of_lt hlt
  exact List.inj_on_of_nodup_map hnodup hseg hseg' hnumber

/-- Cutting segments keeps what all of them hold. -/
theorem foldl_reconcile_holds (hK : FileFact K) {segs : List Segment} {dss : List (List Delta)}
    (hordered : (segs.map Segment.number).Pairwise (· < ·)) (todo : List Segment) :
    ∀ data : Folder Nat, (∀ seg ∈ todo, seg ∈ segs) →
      List.Forall₂ (Segment.Holds c (K data)) segs dss →
      List.Forall₂ (Segment.Holds c (K (todo.foldl reconcileSegment data))) segs dss := by
  induction todo with
  | nil => exact fun _ _ h => h
  | cons s todo ih =>
      intro data htodo hall
      rw [List.foldl_cons]
      refine ih _ (fun seg hseg => htodo seg (List.mem_cons_of_mem s hseg)) ?_
      refine forall₂_holds_mono hall fun seg hseg ds hs => hK.cut s hs.bytes fun hnumber => ?_
      rw [← segment_of_number hordered hseg (htodo s List.mem_cons_self) hnumber, hs.counts.nbytes]

/-- A log opens on a manifest and its files, and holds what the manifest names. -/
theorem open_logged (hK : FileFact K) {disk : LogDisk} (h : Named c (K disk.data) disk.committed kept)
    (params : LogParams) : ∃ w, openLog params disk = .ok w ∧
      Logged c (K w.disk.data) w kept [] ∧ w.log.segments = w.disk.committed.segments ∧ w.Clean ∧
      w.disk.manifest = disk.manifest := by
  -- The manifest passes the three checks of the loader, or there is none and the log is new.
  have hload : loadManifest disk.manifest.current params = .ok
      { params := params, segments := disk.committed.segments
        nextSegment := disk.committed.nextSegment, watermark := disk.committed.watermark
        applied := disk.committed.watermark, genesisTid := disk.committed.genesisTid
        genesisTypes := disk.committed.genesisTypes } := by
    have hformat := h.format
    have hversion := h.version
    have hcontract := h.contract
    unfold LogDisk.committed at hformat hversion hcontract ⊢
    unfold loadManifest
    cases hm : disk.manifest.current with
    | none => rfl
    | some m =>
        rw [hm] at hformat hversion hcontract
        dsimp only [Option.getD_some] at hformat hversion hcontract ⊢
        rw [if_neg (not_not.mpr hformat), if_neg (by omega), if_neg (not_not.mpr hcontract)]
  -- Reconciling cuts the segments to the bytes the manifest counts and drops other files.
  rcases h.stored with ⟨dss, hall, hflat⟩
  have hcut := foldl_reconcile_holds hK h.ordered disk.committed.segments disk.data
    (fun _ hseg => hseg) hall
  have hkept : Named c (K (reconcileSegments disk.committed.segments disk.data)) disk.committed
      kept := by
    refine { h with stored := ⟨dss, ?_, hflat⟩ }
    exact forall₂_holds_mono hcut fun seg hseg ds hs =>
      hK.keep hs.bytes (List.mem_map_of_mem hseg)
  have hfiles : ∀ seg ∈ disk.committed.segments, disk.data seg.number ≠ none := by
    intro seg hseg
    rcases List.mem_iff_get.mp hseg with ⟨i, rfl⟩
    exact hK.file (hall.get i.2 (hall.length_eq ▸ i.2)).bytes
  have hlengths := foldl_reconcile_length disk.committed.segments disk.data h.ordered hfiles
  unfold openLog
  rw [hload]
  refine ⟨_, rfl, ⟨hkept, rfl, ⟨[], (List.append_nil _).symm, rfl, Or.inl rfl⟩, rfl, rfl, rfl, rfl,
    ?_⟩, rfl, ?_, rfl⟩
  · intro n hn
    by_contra hnot
    apply hn
    change reconcileSegments disk.committed.segments disk.data n = none
    unfold reconcileSegments keepOnly
    rw [if_neg]
    intro hmem
    rcases List.mem_map.mp hmem with ⟨seg, hseg, hnumber⟩
    exact hnot ⟨seg, hseg, hnumber⟩
  · intro seg hseg
    change (reconcileSegments disk.committed.segments disk.data |>.contents seg.number).length = _
    unfold reconcileSegments Folder.contents keepOnly
    rw [if_pos (List.mem_map_of_mem hseg)]
    exact hlengths seg hseg

end Open

/-- The log when an operation comes to its flush: an accepted delta is buffered. -/
def LogOp.enter (c : DeltaCodec) (w : LogWorld) : LogOp → LogWorld
  | .apply d => if w.log.accepts d then { w with log := w.log.buffered c d } else w
  | .flush => w

/-- Whether an operation comes to a flush. -/
def LogOp.flushes (l : DeltaLog) : LogOp → Bool
  | .apply d => l.accepts d && l.params.flushEvery ≤ l.appliesSinceFlush + 1
  | .flush => true

/-- What applying a delta leaves: a refused or skipped one leaves no trace. -/
theorem apply_final (fault : Option FileStep) (d : Delta) (w : LogWorld) :
    finalState (DeltaLog.apply c fault d w) =
      if (LogOp.apply d).flushes w.log then finalState (flush fault ((LogOp.apply d).enter c w))
      else (LogOp.apply d).enter c w := by
  by_cases haccepts : w.log.accepts d = true
  · -- An accepted delta passes each check of the source and is buffered.
    have henter : (LogOp.apply d).enter c w = { w with log := w.log.buffered c d } := by
      unfold LogOp.enter
      dsimp only
      rw [if_pos haccepts]
    have hflushes : (LogOp.apply d).flushes w.log =
        decide (w.log.params.flushEvery ≤ w.log.appliesSinceFlush + 1) := by
      unfold LogOp.flushes
      dsimp only
      rw [haccepts, Bool.true_and]
    have hcond := of_decide_eq_true haccepts
    have hchecked : (checkDeltaHeader d).mapError LogErr.delta = .ok () := by rw [hcond.1]; rfl
    have hfind : (d.ops.find? fun op => op.kind = .other) = none := by
      rw [List.find?_eq_none]
      intro op hop hkind
      exact hcond.2.2 op hop (of_decide_eq_true hkind)
    have hahead : ¬d.tid ≤ w.log.applied := by omega
    unfold DeltaLog.apply
    rw [bind_run_ok (ofExcept_run_ok hchecked w), bind_run_ok (get_run w), if_neg hahead,
      if_neg (not_not.mpr hcond.2.1), hfind]
    dsimp only
    rw [bind_run_ok (set_run _ w), henter, hflushes]
    by_cases hdue : w.log.params.flushEvery ≤ w.log.appliesSinceFlush + 1
    · have hdue' : (w.log.buffered c d).params.flushEvery ≤
          (w.log.buffered c d).appliesSinceFlush := hdue
      rw [if_pos (decide_eq_true hdue), if_pos hdue', bind_run]
      cases flush fault { w with log := w.log.buffered c d } <;> rfl
    · have hdue' : ¬(w.log.buffered c d).params.flushEvery ≤
          (w.log.buffered c d).appliesSinceFlush := hdue
      rw [if_neg hdue', if_neg fun h => hdue (of_decide_eq_true h)]
      rfl
  · -- Every way not to accept a delta ends before the buffer is touched.
    have hrefused := fun hall => haccepts (decide_eq_true hall)
    have henter : (LogOp.apply d).enter c w = w := by
      unfold LogOp.enter
      dsimp only
      rw [if_neg haccepts]
    rw [Bool.not_eq_true] at haccepts
    have hflushes : (LogOp.apply d).flushes w.log = false := by
      unfold LogOp.flushes
      dsimp only
      rw [haccepts, Bool.false_and]
    rw [henter, hflushes, if_neg Bool.false_ne_true]
    unfold DeltaLog.apply
    cases hheader : checkDeltaHeader d with
    | error e => rfl
    | ok u =>
        have hchecked : (Except.ok u : Except DeltaErr Unit).mapError LogErr.delta = .ok u := rfl
        rw [bind_run_ok (ofExcept_run_ok hchecked w), bind_run_ok (get_run w)]
        by_cases hskip : d.tid ≤ w.log.applied
        · rw [if_pos hskip]
          rfl
        · rw [if_neg hskip]
          by_cases hnext : d.tid = w.log.applied + 1
          · rw [if_neg (not_not.mpr hnext)]
            cases hfind : d.ops.find? fun op => op.kind = .other with
            | some op => rfl
            | none =>
                exfalso
                refine hrefused ⟨hheader, hnext, fun op hop hkind => ?_⟩
                exact List.find?_eq_none.mp hfind op hop (decide_eq_true hkind)
          · rw [if_pos hnext]
            rfl

/-- What an operation leaves. -/
theorem op_final (fault : Option FileStep) (o : LogOp) (w : LogWorld) :
    finalState (o.run c fault w) =
      if o.flushes w.log then finalState (flush fault (o.enter c w)) else o.enter c w := by
  cases o with
  | flush => rfl
  | apply d =>
      rw [← apply_final]
      change finalState ((DeltaLog.apply c fault d >>= fun _ => pure ()) w) = _
      rw [bind_run]
      cases DeltaLog.apply c fault d w <;> rfl

/-- A sound log with one more delta in its buffer. -/
theorem Logged.buffered (h : Logged c P w kept rest) {d : Delta}
    (htid : d.tid = w.log.applied + 1) :
    Logged c P { w with log := w.log.buffered c d } kept (rest ++ [d]) := by
  refine { h with buffer := ?_, applied := ?_, tracked := h.tracked }
  · change w.log.buffer ++ [(d.tid, c.encode d)] = _
    rw [h.buffer, List.map_append, List.map_singleton]
  · have happlied := h.applied
    change d.tid = w.log.watermark + (rest ++ [d]).length
    rw [List.length_append, List.length_singleton]
    omega

/-- The deltas of a sound log end at the last one taken in. -/
theorem Logged.applied_length (h : Logged c P w kept rest) :
    w.log.applied = w.log.genesisTid + (kept ++ rest).length := by
  have hnamed := h.named.watermark
  rw [h.applied, h.watermark, hnamed, h.genesisTid, List.length_append]
  omega

/-- Adding to a segment file keeps a log sound. -/
theorem Logged.adds (h : Logged c w.disk.data.Shows w kept rest) {n : Nat}
    (hadds : Adds n w.disk.data data) (hn : ∃ seg ∈ w.log.segments, seg.number = n) :
    Logged c data.Shows { w with disk.data := data } kept rest := by
  refine { h with named := ?_, tracked := ?_ }
  · exact h.named.mono fun _ _ _ hs => hadds.shows _ _ hs.bytes
  · intro n' hfile
    by_cases hsame : n' = n
    · rw [hsame]
      exact hn
    · exact h.tracked n' fun hnone => hfile (hadds.absent n' hsame hnone)

/-- Without debris, the segment a flush appends to has the length it counts. -/
theorem LogWorld.Clean.ensured (h : w.Clean) {init : List Segment} {dss : List (List Delta)}
    {held : List Delta}
    (ht : Target c P w.log.ensured.1 ⟨w.log.ensured.2, w.disk⟩ init dss held) :
    (w.disk.data.contents w.log.ensured.2.current.number).length =
      w.log.ensured.2.current.nbytes := by
  have hmem : w.log.ensured.2.current ∈ w.log.ensured.2.segments := ht.current_mem
  have hfresh := ht.fresh
  rw [ensured_eq] at hmem hfresh ⊢
  split at hmem
  · rename_i hroom
    rw [if_pos hroom]
    exact h _ hmem
  · rename_i hroom
    rw [if_neg hroom] at hfresh ⊢
    have hnone := hfresh rfl
    rw [current_append _ rfl] at hnone ⊢
    unfold Folder.contents
    change ((w.disk.data w.log.nextSegment).getD File.empty).bytes.length = 0
    change w.disk.data w.log.nextSegment = none at hnone
    rw [hnone]
    rfl

/-- The state after a flush that returned is sound, and its buffer is empty. -/
theorem flushed_logged {Q : Nat → Bytes → Prop} {created : Bool}
    (h : Logged c P w kept rest) {slot : Slot LogManifest}
    (hslot : slot.current = some w.log.counted.manifest)
    (hnamed : Named c Q w.log.counted.manifest (kept ++ rest))
    (hn : ∃ seg ∈ w.log.segments, seg.number = w.log.current.number)
    (hsegments : w.log.segments = w.log.segments.dropLast ++ [w.log.current]) :
    Logged c Q ⟨w.log.counted.flushed, w.filed created slot⟩ (kept ++ rest) [] := by
  have hcommitted : (w.filed created slot).committed = w.log.counted.manifest := by
    unfold LogDisk.committed LogWorld.filed
    rw [hslot]
    rfl
  refine ⟨by rw [hcommitted]; exact hnamed, rfl, ⟨[], ?_, ?_, Or.inl rfl⟩, ?_, rfl, ?_, ?_, ?_⟩
  -- What the manifest on disk says is what the log in memory says.
  · rw [hcommitted, List.append_nil]
    rfl
  · rw [hcommitted]
    rfl
  · rw [hcommitted]
    rfl
  · rw [hcommitted]
    rfl
  · rw [hcommitted]
    rfl
  · -- Appending a segment's bytes brings no other file.
    intro n hfile
    have hold : ∃ seg ∈ w.log.segments, seg.number = n := by
      by_cases hsame : n = w.log.current.number
      · rw [hsame]
        exact hn
      · refine h.tracked n fun hnone => hfile ?_
        exact (adds_written created _ w.log.blob w.disk.data).absent n hsame hnone
    rcases hold with ⟨seg, hseg, hnumber⟩
    change ∃ seg ∈ w.log.segments.dropLast ++ [w.log.extended w.log.current], seg.number = n
    rw [hsegments] at hseg
    rcases List.mem_append.mp hseg with hseg | hseg
    · exact ⟨seg, List.mem_append_left _ hseg, hnumber⟩
    · rw [List.mem_singleton] at hseg
      refine ⟨_, List.mem_append_right _ List.mem_cons_self, ?_⟩
      rw [hseg] at hnumber
      exact hnumber

/-- A flush that is interrupted before the counters move leaves a sound log, and a
    flush that returns leaves one with an empty buffer. -/
theorem Logged.flush (h : Logged c w.disk.data.Shows w kept rest) (hclean : w.Clean)
    (hist : History c genesis (kept ++ rest)) (hrest : rest ≠ []) (fault : Option FileStep) :
    (∃ step w', fault = some step ∧ step.late = false ∧
      DeltaLog.flush fault w = .error .os w' ∧ Logged c w'.disk.data.Shows w' kept rest) ∨
    (∃ step, fault = some step ∧ step.late = true) ∨
    ∃ w', DeltaLog.flush fault w = .ok () w' ∧
      Logged c w'.disk.data.Shows w' (kept ++ rest) [] := by
  rcases h.target with ⟨init, dss, held, ht, hflat, hsound, -⟩
  have hn : ∃ seg ∈ w.log.ensured.2.segments, seg.number = w.log.ensured.2.current.number :=
    ⟨w.log.ensured.2.current, ht.current_mem, rfl⟩
  rw [flush_full fault (h.buffer_ne hrest)]
  -- A flush fails before the manifest, after it, or not at all.
  rcases flushTo_cases fault w.log.ensured.1 ⟨w.log.ensured.2, w.disk⟩ with
    ⟨step, data, hstep, hearly, hadds, hrun⟩ | ⟨step, slot, hstep, hlate, -, -⟩ | hrun
  · exact Or.inl ⟨step, _, hstep, hearly, hrun, hsound.adds hadds hn⟩
  · exact Or.inr (Or.inl ⟨step, hstep, hlate⟩)
  · right; right
    refine ⟨_, hrun, ?_⟩
    have hcontents := ht.contents (fun _ _ hb => hb) (hclean.ensured ht)
    rcases written_file w.log.ensured.1 w.log.ensured.2.current.number w.log.ensured.2.blob
      w.disk.data with ⟨f, hf, hbytes, -, -⟩
    have happlied := hsound.applied_length
    rw [← hflat] at hist happlied
    have hnamed := ht.named (Q := Folder.Shows (written w.log.ensured.1
      w.log.ensured.2.current.number w.log.ensured.2.blob w.disk.data)) hist hrest hsound.buffer
      happlied (fun _ _ hs => (adds_written _ _ _ _).shows _ _ hs) ?_
    · rw [hflat] at hnamed
      exact flushed_logged hsound rfl hnamed hn ht.last.2
    · refine ⟨f, hf, ?_⟩
      change w.disk.data.contents w.log.ensured.2.current.number = _ at hcontents
      have hblob : w.log.ensured.2.blob = c.blob rest := blob_of_buffer hsound.buffer
      rw [hbytes, hcontents, hblob, ← DeltaCodec.blob_append]

/-- Before a flush chose its segment the others were there. -/
theorem ensured_init {init : List Segment} {seg : Segment}
    (h : w.log.ensured.2.segments = init ++ [seg]) : ∀ s ∈ init, s ∈ w.log.segments := by
  intro s hs
  rw [ensured_eq] at h
  split at h
  · change w.log.segments = init ++ [seg] at h
    rw [h]
    exact List.mem_append_left _ hs
  · change w.log.segments ++ [_] = init ++ [seg] at h
    rw [(List.append_inj' h rfl).1]
    exact hs

/-- A flush leaves no bytes behind that the log does not count. -/
theorem LogWorld.Clean.flushed (h : w.Clean) {init : List Segment} {dss : List (List Delta)}
    {held : List Delta}
    (ht : Target c P w.log.ensured.1 ⟨w.log.ensured.2, w.disk⟩ init dss held)
    (slot : Slot LogManifest) :
    LogWorld.Clean ⟨w.log.ensured.2.counted.flushed,
      LogWorld.filed w.log.ensured.1 slot ⟨w.log.ensured.2, w.disk⟩⟩ := by
  intro seg hseg
  change seg ∈ w.log.ensured.2.segments.dropLast ++ [_] at hseg
  rw [ht.last.1] at hseg
  rcases List.mem_append.mp hseg with hseg | hseg
  · -- The segments before the current one were not touched.
    have hordered := ht.ordered
    rw [ht.segments, List.map_append, List.pairwise_append] at hordered
    have hlt := hordered.2.2 _ (List.mem_map_of_mem hseg) _ List.mem_cons_self
    have hadds := adds_written w.log.ensured.1 w.log.ensured.2.current.number
      w.log.ensured.2.blob w.disk.data
    have hsame := hadds.others seg.number (Nat.ne_of_lt hlt)
    change (Folder.contents (written _ _ _ _) seg.number).length = seg.nbytes
    rw [hsame]
    exact h seg (ensured_init ht.segments seg hseg)
  · -- The current one has the bytes it counted and the buffered ones.
    rw [List.mem_singleton.mp hseg]
    rcases written_file w.log.ensured.1 w.log.ensured.2.current.number w.log.ensured.2.blob
      w.disk.data with ⟨f, hf, hbytes, -, -⟩
    change (Folder.contents (written _ _ _ _) w.log.ensured.2.current.number).length =
      w.log.ensured.2.current.nbytes + w.log.ensured.2.blob.length
    unfold Folder.contents
    rw [hf, ← h.ensured ht, ← List.length_append, ← hbytes]
    rfl

namespace Ready

/-- A log at rest is fit for recovery. -/
theorem recoverable (h : Ready c w kept rest) : w.disk.Recoverable c w.log.genesisTid
    w.log.genesisTypes w.log.watermark (kept ++ rest) := by
  have hcurrent : Recovers c w.log.genesisTid w.log.genesisTypes w.log.watermark w.disk.data
      w.disk.committed (kept ++ rest) :=
    ⟨h.sound.genesisTid.symm, h.sound.genesisTypes.symm, Nat.le_of_eq h.sound.watermark,
      ⟨kept, rest, rfl, h.sound.named⟩⟩
  refine ⟨hcurrent, ?_⟩
  rw [h.synced]
  exact hcurrent

/-- The new bytes of a flush are on disk before the manifest is written. -/
theorem durable_written (h : Ready c w kept rest) {init : List Segment} {dss : List (List Delta)}
    {held : List Delta}
    (ht : Target c w.disk.data.Durable w.log.ensured.1 ⟨w.log.ensured.2, w.disk⟩ init dss held)
    (hsound : Logged c w.disk.data.Durable ⟨w.log.ensured.2, w.disk⟩ kept rest)
    (hreused : w.log.ensured.1 = false → held ≠ []) : Folder.Durable
      (written w.log.ensured.1 w.log.ensured.2.current.number w.log.ensured.2.blob w.disk.data)
      w.log.ensured.2.current.number (c.blob (held ++ rest)) := by
  have hcontents := ht.contents (fun _ _ hb => hb.shows) (h.clean.ensured ht)
  change w.disk.data.contents w.log.ensured.2.current.number = _ at hcontents
  have hblob : w.log.ensured.2.blob = c.blob rest := blob_of_buffer hsound.buffer
  rcases written_file w.log.ensured.1 w.log.ensured.2.current.number w.log.ensured.2.blob
    w.disk.data with ⟨f, hf, hbytes, hsynced, hlinked⟩
  rw [hcontents, hblob, ← DeltaCodec.blob_append] at hbytes
  refine ⟨f, hf, by rw [hbytes], by rw [hsynced, hbytes], ?_⟩
  rw [hlinked]
  cases hcreated : w.log.ensured.1 with
  | true => rfl
  | false =>
      -- A segment that holds deltas has had its folder synced.
      rcases ht.bytes (hreused hcreated) with ⟨g, hg, -, -, hold⟩
      change w.disk.data w.log.ensured.2.current.number = some g at hg
      rw [hg]
      exact hold

/-- Wherever a flush is interrupted, the files are fit for recovery, and a flush
    that is not leaves a log at rest. -/
theorem flush (h : Ready c w kept rest) (hist : History c genesis (kept ++ rest))
    (fault : Option FileStep) :
    (finalState (DeltaLog.flush fault w)).disk.Recoverable c w.log.genesisTid w.log.genesisTypes
      w.log.watermark (kept ++ rest) ∧
    (fault = none → ∃ w', DeltaLog.flush none w = .ok () w' ∧ Ready c w' (kept ++ rest) [] ∧
      w'.log.genesisTid = w.log.genesisTid ∧ w'.log.genesisTypes = w.log.genesisTypes ∧
      w.log.watermark ≤ w'.log.watermark) := by
  have hrecoverable := h.recoverable
  by_cases hrest : rest = []
  · have hempty : w.log.buffer = [] := by rw [h.sound.buffer, hrest]; rfl
    rw [flush_empty hempty]
    refine ⟨hrecoverable, fun _ => ⟨_, flush_empty hempty, ?_, rfl, rfl, Nat.le_refl _⟩⟩
    have hsound := h.sound
    rw [hrest] at hsound
    rw [hrest, List.append_nil]
    exact ⟨{ hsound with }, h.settled, h.clean, h.synced⟩
  · have hbuffer := h.sound.buffer_ne hrest
    rcases h.sound.target with ⟨init, dss, held, ht, hflat, hsound, hreused⟩
    have hfields := ensured_fields w.log
    have hn : ∃ seg ∈ w.log.ensured.2.segments, seg.number = w.log.ensured.2.current.number :=
      ⟨w.log.ensured.2.current, ht.current_mem, rfl⟩
    have hadds := adds_written w.log.ensured.1 w.log.ensured.2.current.number
      w.log.ensured.2.blob w.disk.data
    have hdurable := h.durable_written ht hsound (hreused h.settled)
    -- The manifest a flush writes names the new bytes too, and these are synced by then.
    have happlied := hsound.applied_length
    rw [← hflat] at hist happlied
    have hnamed := ht.named hist hrest hsound.buffer happlied (fun n bs hd => hadds.durable n bs hd)
      hdurable
    rw [hflat] at hnamed
    have hnew : Recovers c w.log.genesisTid w.log.genesisTypes w.log.watermark
        (written w.log.ensured.1 w.log.ensured.2.current.number w.log.ensured.2.blob w.disk.data)
        w.log.ensured.2.counted.manifest (kept ++ rest) := by
      refine ⟨hfields.2.2.2.1, hfields.2.2.2.2.1, ?_, ⟨_, [], by rw [List.append_nil], hnamed⟩⟩
      change w.log.watermark ≤ w.log.ensured.2.applied
      rw [hfields.2.1, h.sound.applied]
      omega
    -- As long as durable bytes stay, the old manifest still finds what it names.
    have hold : ∀ data : Folder Nat, (∀ n bs, w.disk.data.Durable n bs → data.Durable n bs) →
        LogDisk.Recoverable c w.log.genesisTid w.log.genesisTypes w.log.watermark
          ⟨data, w.disk.manifest⟩ (kept ++ rest) := by
      intro data hdata
      have hcurrent := hrecoverable.current.mono hdata []
      have hstable := hrecoverable.stable.mono hdata []
      rw [List.append_nil] at hcurrent hstable
      exact ⟨hcurrent, hstable⟩
    rw [flush_full fault hbuffer]
    rcases flushTo_cases fault w.log.ensured.1 ⟨w.log.ensured.2, w.disk⟩ with
      ⟨step, data, hstep, -, hpart, hrun⟩ | ⟨step, slot, hstep, -, hslot, hrun⟩ | hrun
    · rw [hrun]
      refine ⟨hold data hpart.durable, fun hnone => ?_⟩
      rw [hstep] at hnone
      cases hnone
    · -- In the middle of the replacement the disk may show either manifest.
      rw [hrun]
      refine ⟨?_, fun hnone => by rw [hstep] at hnone; cases hnone⟩
      rcases hslot with rfl | rfl
      · exact hold _ hadds.durable
      · exact ⟨hnew, (hold _ hadds.durable).stable⟩
    · rw [hrun]
      refine ⟨⟨hnew, hnew⟩, fun hnone => ?_⟩
      rw [hnone] at hrun
      rw [flush_full none hbuffer]
      refine ⟨_, hrun, ⟨?_, rfl, ?_, rfl⟩, hfields.2.2.2.1, hfields.2.2.2.2.1, hnew.floor⟩
      · exact flushed_logged hsound rfl hnamed hn ht.last.2
      · exact h.clean.flushed ht _

end Ready

/-- A start of a log at rest. -/
theorem startLog_ready (params : LogParams) (joined : Option (Nat × List TypeRow)) :
    Ready c (startLog params joined) [] [] ∧
      (startLog params joined).log.genesisTid = (joined.map Prod.fst).getD 0 ∧
      (startLog params joined).log.genesisTypes = (joined.map Prod.snd).getD [] := by
  cases joined with
  | none =>
      refine ⟨⟨⟨⟨rfl, rfl, rfl, ⟨[], .nil, rfl⟩, .nil, fun _ h => absurd h List.not_mem_nil, rfl⟩,
        rfl, ⟨[], rfl, rfl, Or.inl rfl⟩, rfl, rfl, rfl, rfl, fun _ h => absurd rfl h⟩, rfl,
        fun _ h => absurd h List.not_mem_nil, rfl⟩, rfl, rfl⟩
  | some join =>
      refine ⟨⟨⟨⟨rfl, rfl, rfl, ⟨[], .nil, rfl⟩, .nil, fun _ h => absurd h List.not_mem_nil, rfl⟩,
        rfl, ⟨[], rfl, rfl, Or.inl rfl⟩, rfl, rfl, rfl, rfl, fun _ h => absurd rfl h⟩, rfl,
        fun _ h => absurd h List.not_mem_nil, rfl⟩, rfl, rfl⟩

/-- The deltas an operation adds are the ones it was given, in their turn. -/
theorem taken_history (h : Logged c P w kept rest) (o : LogOp)
    (hist : History c genesis (kept ++ rest)) (hgenesis : w.log.genesisTid = genesis)
    (hgiven : ∀ d ∈ o.given, c.Carries d) : History c genesis (kept ++ rest ++ o.taken w.log) := by
  cases o with
  | flush =>
      change History c genesis (kept ++ rest ++ [])
      rw [List.append_nil]
      exact hist
  | apply d =>
      change History c genesis (kept ++ rest ++ if w.log.accepts d then [d] else [])
      by_cases haccepts : w.log.accepts d = true
      · rw [if_pos haccepts]
        have hnext := of_decide_eq_true haccepts
        refine hist.snoc ?_ (hgiven d List.mem_cons_self)
        rw [hnext.2.1, h.applied_length, hgenesis]
      · rw [if_neg haccepts, List.append_nil]
        exact hist

/-- An operation that comes to its flush has buffered what it was given. -/
theorem Logged.enter (h : Logged c P w kept rest) (o : LogOp) :
    Logged c P (o.enter c w) kept (rest ++ o.taken w.log) := by
  cases o with
  | flush =>
      change Logged c P w kept (rest ++ [])
      rw [List.append_nil]
      exact h
  | apply d =>
      unfold LogOp.enter LogOp.taken
      dsimp only
      by_cases haccepts : w.log.accepts d = true
      · rw [if_pos haccepts, if_pos haccepts]
        exact h.buffered (of_decide_eq_true haccepts).2.1
      · rw [if_neg haccepts, if_neg haccepts, List.append_nil]
        exact h

/-- Buffering works on the buffer alone. -/
theorem enter_fields (o : LogOp) (w : LogWorld) : (o.enter c w).disk = w.disk ∧
    (o.enter c w).log.segments = w.log.segments ∧
    (o.enter c w).log.watermark = w.log.watermark ∧
    (o.enter c w).log.genesisTid = w.log.genesisTid ∧
    (o.enter c w).log.genesisTypes = w.log.genesisTypes := by
  cases o with
  | flush => exact ⟨rfl, rfl, rfl, rfl, rfl⟩
  | apply d =>
      unfold LogOp.enter
      dsimp only
      split <;> exact ⟨rfl, rfl, rfl, rfl, rfl⟩

theorem LogWorld.Clean.enter (h : w.Clean) (o : LogOp) : (o.enter c w).Clean := by
  have hfields := enter_fields (c := c) o w
  unfold LogWorld.Clean
  rw [hfields.1, hfields.2.1]
  exact h

theorem Ready.enter (h : Ready c w kept rest) (o : LogOp) :
    Ready c (o.enter c w) kept (rest ++ o.taken w.log) := by
  have hfields := enter_fields (c := c) o w
  have hsound := h.sound.enter o
  refine ⟨?_, ?_, h.clean.enter o, ?_⟩
  · rw [hfields.1]
    exact hsound
  · rw [hfields.2.1, hfields.1]
    exact h.settled
  · rw [hfields.1]
    exact h.synced

/-- A log in a run without failed operations: what it was given is a history without
    a gap, the first of it is on disk and the rest is in the buffer. -/
structure LogRun.AtRest (c : DeltaCodec) (genesis : Nat) (types : List TypeRow) (r : LogRun) :
    Prop where
  served : r.refused = false
  history : History c genesis r.taken
  genesisTid : r.world.log.genesisTid = genesis
  genesisTypes : r.world.log.genesisTypes = types
  ready : ∃ kept rest, r.taken = kept ++ rest ∧ Ready c r.world kept rest

namespace LogRun.AtRest

variable {r : LogRun}

/-- Wherever an operation is interrupted, the files are fit for recovery; one that
    is not leaves a log at rest. -/
theorem act (h : r.AtRest c genesis types) (o : LogOp) (hgiven : ∀ d ∈ o.given, c.Carries d)
    (fault : Option FileStep) :
    History c genesis (r.act c o fault).taken ∧
    (r.act c o fault).world.disk.Recoverable c genesis types r.world.log.watermark
      (r.act c o fault).taken ∧
    (fault = none → (r.act c o none).AtRest c genesis types) := by
  rcases h.ready with ⟨kept, rest, htaken, hready⟩
  have hist := h.history
  rw [htaken] at hist
  have hist' := taken_history hready.sound o hist h.genesisTid hgiven
  rw [List.append_assoc] at hist'
  have hsplit : (r.act c o fault).taken = kept ++ (rest ++ o.taken r.world.log) := by
    rw [← List.append_assoc, ← htaken]
    rfl
  have hfields := enter_fields (c := c) o r.world
  have hentered := hready.enter o
  rw [hsplit]
  refine ⟨hist', ?_⟩
  change (finalState (o.run c fault r.world)).disk.Recoverable c genesis types _ _ ∧ _
  rw [op_final]
  -- Whether the operation flushed or not, what is at rest is the same deltas split anew.
  have hatrest : ∀ kept' rest', kept ++ (rest ++ o.taken r.world.log) = kept' ++ rest' →
      Ready c (r.act c o none).world kept' rest' →
      (r.act c o none).world.log.genesisTid = genesis →
      (r.act c o none).world.log.genesisTypes = types →
      (r.act c o none).AtRest c genesis types := by
    intro kept' rest' hsame hw hgenesis htypes
    have htaken' : (r.act c o none).taken = kept ++ (rest ++ o.taken r.world.log) := hsplit
    refine ⟨h.served, ?_, hgenesis, htypes, ⟨kept', rest', ?_, hw⟩⟩
    · rw [htaken']
      exact hist'
    · rw [htaken', hsame]
  have hworld : (r.act c o none).world = finalState (o.run c none r.world) := rfl
  rw [op_final] at hworld
  by_cases hflushes : o.flushes r.world.log = true
  · rw [if_pos hflushes] at hworld ⊢
    have hrun := hentered.flush hist' fault
    rw [hfields.2.2.2.1, hfields.2.2.2.2, h.genesisTid, h.genesisTypes, hfields.2.2.1] at hrun
    refine ⟨hrun.1, fun hnone => ?_⟩
    rcases hrun.2 hnone with ⟨w', hok, hready', hgenesis, htypes, -⟩
    rw [hok] at hworld
    refine hatrest (kept ++ (rest ++ o.taken r.world.log)) [] ?_ ?_ ?_ ?_
    · rw [List.append_nil]
    · rw [hworld]
      exact hready'
    · rw [hworld]
      exact hgenesis
    · rw [hworld]
      exact htypes
  · rw [if_neg hflushes] at hworld ⊢
    have hrecoverable := hentered.recoverable
    rw [hfields.2.2.2.1, hfields.2.2.2.2, h.genesisTid, h.genesisTypes, hfields.2.2.1]
      at hrecoverable
    refine ⟨hrecoverable, fun _ => ?_⟩
    refine hatrest kept (rest ++ o.taken r.world.log) rfl ?_ ?_ ?_
    · rw [hworld]
      exact hentered
    · rw [hworld, hfields.2.2.2.1]
      exact h.genesisTid
    · rw [hworld, hfields.2.2.2.2]
      exact h.genesisTypes

end LogRun.AtRest

/-- Opening what a process left: the log is at rest, and what it holds are the
    deltas its manifest goes up to. -/
theorem Recovers.opened {r : LogRun} {disk : LogDisk}
    (h : Recovers c genesis types floor disk.data disk.committed r.taken)
    (hist : History c genesis r.taken) (hserved : r.refused = false)
    (hsynced : disk.manifest.stable = disk.manifest.current) (params : LogParams) :
    ∃ w kept, openLog params disk = .ok w ∧ w.log.watermark = disk.committed.watermark ∧
      kept = r.taken.filter (fun d => d.tid ≤ disk.committed.watermark) ∧
      History c genesis kept ∧ disk.committed.watermark = genesis + kept.length ∧
      Ready c w kept [] ∧ r.opened params disk = { r with world := w, taken := kept } ∧
      (r.opened params disk).AtRest c genesis types := by
  rcases h.named with ⟨kept, rest, htaken, hnamed⟩
  -- What is opened is what the manifest on disk names.
  rcases open_logged durable_fileFact hnamed params with
    ⟨w, hopen, hsound, hsettled, hclean, hmanifest⟩
  have hcommitted : w.disk.committed = disk.committed := by
    unfold LogDisk.committed
    rw [hmanifest]
  have hwatermark : disk.committed.watermark = genesis + kept.length := by
    rw [hnamed.watermark, h.genesisTid]
  -- Which are the deltas up to its watermark.
  have hkept : r.taken.filter (fun d => d.tid ≤ disk.committed.watermark) = kept := by
    rw [hwatermark, htaken]
    rw [htaken] at hist
    exact hist.filter
  have hready : Ready c w kept [] :=
    ⟨hsound, hsettled, hclean, by rw [hmanifest]; exact hsynced⟩
  have hopened : r.opened params disk = { r with world := w, taken := kept } := by
    unfold LogRun.opened
    rw [hopen]
    dsimp only
    rw [hkept]
  rw [htaken] at hist
  refine ⟨w, kept, hopen, ?_, hkept.symm, hist.left, hwatermark, hready, hopened, ?_⟩
  · rw [hsound.watermark, hcommitted]
  · rw [hopened]
    refine ⟨hserved, hist.left, ?_, ?_, ⟨kept, [], by rw [List.append_nil], hready⟩⟩
    · rw [hsound.genesisTid, hcommitted]
      exact h.genesisTid
    · rw [hsound.genesisTypes, hcommitted]
      exact h.genesisTypes

/-- An event without an operation that failed. A crash may come in the middle of one. -/
def LogEvent.Healthy : LogEvent → Prop
  | .op _ fault => fault = none
  | .reopen _ => True
  | .crash _ _ _ _ => True

namespace LogRun.AtRest

variable {r : LogRun}

theorem cut (h : r.AtRest c genesis types) (during : Option (LogOp × Option FileStep))
    (hgiven : ∀ e, during = some e → ∀ d ∈ e.1.given, c.Carries d) :
    History c genesis (r.cut c during).taken ∧
    (r.cut c during).refused = false ∧
    (r.cut c during).world.disk.Recoverable c genesis types r.world.log.watermark
      (r.cut c during).taken := by
  cases during with
  | none =>
      rcases h.ready with ⟨kept, rest, htaken, hready⟩
      have hrecoverable := hready.recoverable
      rw [h.genesisTid, h.genesisTypes, ← htaken] at hrecoverable
      exact ⟨h.history, h.served, hrecoverable⟩
  | some e =>
      have hact := h.act e.1 (hgiven e rfl) e.2
      exact ⟨hact.1, h.served, hact.2.1⟩

/-- One event that is no failure leaves a log at rest. -/
theorem step (h : r.AtRest c genesis types) (e : LogEvent) (hhealthy : e.Healthy)
    (hgiven : ∀ d ∈ e.given, c.Carries d) : (r.step c e).AtRest c genesis types := by
  cases e with
  | op o fault =>
      change fault = none at hhealthy
      rw [hhealthy]
      exact (h.act o hgiven none).2.2 rfl
  | reopen params =>
      have hcut := h.cut none fun _ hnone => nomatch hnone
      rcases h.ready with ⟨kept, rest, -, hready⟩
      rcases hcut.2.2.current.opened hcut.1 hcut.2.1 hready.synced params with
        ⟨w, kept', -, -, -, -, -, -, -, hatrest⟩
      exact hatrest
  | crash during wreck keptNew params =>
      have hcut := h.cut during fun e he d hd => hgiven d (by rw [he]; exact hd)
      rcases (hcut.2.2.crash wreck keptNew).opened hcut.1 hcut.2.1 rfl params with
        ⟨w, kept', -, -, -, -, -, -, -, hatrest⟩
      exact hatrest

end LogRun.AtRest

/-- A new log. -/
def LogRun.start (params : LogParams) (joined : Option (Nat × List TypeRow)) : LogRun :=
  { world := startLog params joined }

/-- The transaction a new log starts after. -/
def genesisOf (joined : Option (Nat × List TypeRow)) : Nat := (joined.map Prod.fst).getD 0

theorem start_atRest (params : LogParams) (joined : Option (Nat × List TypeRow)) :
    (LogRun.start params joined).AtRest c (genesisOf joined) ((joined.map Prod.snd).getD []) := by
  have hstart := startLog_ready (c := c) params joined
  exact ⟨rfl, History.nil, hstart.2.1, hstart.2.2, ⟨[], [], rfl, hstart.1⟩⟩

theorem run_atRest {r : LogRun} (h : r.AtRest c genesis types) (events : List LogEvent)
    (hhealthy : ∀ e ∈ events, e.Healthy) (hgiven : ∀ e ∈ events, ∀ d ∈ e.given, c.Carries d) :
    (r.run c events).AtRest c genesis types := by
  unfold LogRun.run
  induction events generalizing r with
  | nil => exact h
  | cons e events ih =>
      have hone := h.step e (hhealthy e List.mem_cons_self) (hgiven e List.mem_cons_self)
      exact ih hone (fun e' he' => hhealthy e' (List.mem_cons_of_mem e he')) fun e' he' =>
        hgiven e' (List.mem_cons_of_mem e he')

/-- What a log whose operations have all returned replays. -/
theorem Ready.replay (h : Ready c w kept rest) (hist : History c genesis (kept ++ rest))
    (after : Nat) :
    DeltaLog.replay c after w = .ok ((kept ++ rest).filter fun d => after < d.tid) := by
  have hshown : Logged c w.disk.data.Shows w kept rest :=
    { h.sound with named := h.sound.named.mono fun _ _ _ hs => hs.bytes.shows }
  exact hshown.replay hist after

/-- A log survives any crash, any number of times. It opens again, its durable
    watermark is that of the manifest on disk, which is not below the watermark it
    had reached, and it replays exactly the deltas from its start to there. -/
theorem survives_crash (c : DeltaCodec) (params : LogParams) (joined : Option (Nat × List TypeRow))
    (events : List LogEvent) (hhealthy : ∀ e ∈ events, e.Healthy)
    (hgiven : ∀ e ∈ events, ∀ d ∈ e.given, c.Carries d)
    (during : Option (LogOp × Option FileStep))
    (hduring : ∀ e, during = some e → ∀ d ∈ e.1.given, c.Carries d)
    (wreck : Nat → Option Bytes) (keptNew : Bool) (params' : LogParams) :
    let r := (LogRun.start params joined).run c events
    let cut := r.cut c during
    let disk := cut.world.disk.crash wreck keptNew
    r.refused = false ∧
    ∃ w, openLog params' disk = .ok w ∧
      w.log.watermark = disk.committed.watermark ∧
      r.world.log.watermark ≤ w.log.watermark ∧
      (∀ after, DeltaLog.replay c after w = .ok ((cut.taken.filter fun d =>
        d.tid ≤ disk.committed.watermark).filter fun d => after < d.tid)) ∧
      (cut.taken.filter fun d => d.tid ≤ disk.committed.watermark).map Delta.tid =
        List.range' (genesisOf joined + 1) (disk.committed.watermark - genesisOf joined) := by
  have hrun := run_atRest (start_atRest (c := c) params joined) events hhealthy hgiven
  have hcut := hrun.cut during hduring
  have hrecovers := hcut.2.2.crash wreck keptNew
  rcases hrecovers.opened hcut.1 hcut.2.1 rfl params' with
    ⟨w, kept, hopen, hwatermark, hkept, hist, hlength, hready, -, -⟩
  refine ⟨hrun.served, w, hopen, hwatermark, ?_, ?_, ?_⟩
  · rw [hwatermark]
    exact hrecovers.floor
  · intro after
    rw [← hkept]
    have hreplay := hready.replay (by rw [List.append_nil]; exact hist) after
    rw [List.append_nil] at hreplay
    exact hreplay
  · rw [← hkept, hist.tids, hlength, Nat.add_sub_cancel_left]

/-- A delta without operations, and a codec that knows such deltas. -/
def plainDelta (tid : Nat) : Delta :=
  { tid := tid, actor := 0, ops := [], types := [], rootOid := none }

def plainCodec : DeltaCodec where
  encode d := [UInt8.ofNat d.tid]
  decode
    | [b] => .ok (plainDelta b.toNat)
    | _ => .error .malformed

theorem plainCodec_carries : plainCodec.Carries (plainDelta 1) ∧ plainCodec.Carries (plainDelta 2) :=
  ⟨⟨rfl, by decide⟩, ⟨rfl, by decide⟩⟩

/-- The second delta is cut off in the middle of its write, and what it left of
    its segment is not what was written. -/
theorem survives_crash_midway :
    let r := (LogRun.start {} none).run plainCodec [.op (.apply (plainDelta 1)) none]
    let cut := r.cut plainCodec (some (.apply (plainDelta 2), some (.write 3)))
    let disk := cut.world.disk.crash (fun _ => some [0, 7]) true
    (∃ w, openLog {} disk = .ok w ∧ ∀ after, DeltaLog.replay plainCodec after w =
      .ok ((cut.taken.filter fun d => d.tid ≤ disk.committed.watermark).filter fun d =>
        after < d.tid)) ∧
      cut.taken = [plainDelta 1, plainDelta 2] ∧ disk.committed.watermark = 1 := by
  have h := survives_crash plainCodec {} none [.op (.apply (plainDelta 1)) none]
    (fun e he => by rw [List.mem_singleton.mp he]; exact rfl)
    (fun e he d hd => by
      rw [List.mem_singleton.mp he] at hd
      rw [List.mem_singleton.mp hd]
      exact plainCodec_carries.1)
    (some (.apply (plainDelta 2), some (.write 3)))
    (fun e he d hd => by
      cases he
      rw [List.mem_singleton.mp hd]
      exact plainCodec_carries.2)
    (fun _ => some [0, 7]) true {}
  rcases h.2 with ⟨w, hopen, -, -, hreplay, -⟩
  exact ⟨⟨w, hopen, hreplay⟩, by decide +kernel, by decide +kernel⟩

/-- An event after which a log that failed is still sound: a flush starts without
    debris in the segments, and is not interrupted after the counters have moved. -/
def LogEvent.Spared (c : DeltaCodec) (r : LogRun) : LogEvent → Prop
  | .op o fault => o.flushes r.world.log = true → (o.enter c r.world).log.buffer ≠ [] →
      r.world.Clean ∧ fault.any FileStep.late = false
  | .reopen _ => True
  | .crash _ _ _ _ => False

instance (r : LogRun) (e : LogEvent) : Decidable (e.Spared c r) := by
  unfold LogEvent.Spared
  cases e <;> infer_instance

/-- A log in a run whose failed flushes were spared. Unlike a log at rest it may
    have written bytes that no manifest counts yet, so its files are spoken of as
    they are seen. -/
structure LogRun.Whole (c : DeltaCodec) (genesis : Nat) (r : LogRun) : Prop where
  served : r.refused = false
  history : History c genesis r.taken
  genesisTid : r.world.log.genesisTid = genesis
  sound : ∃ kept rest, r.taken = kept ++ rest ∧ Logged c r.world.disk.data.Shows r.world kept rest

/-- A flush of a sound log, whether or not there is anything to flush. -/
theorem Logged.flush_final (h : Logged c w.disk.data.Shows w kept rest)
    (hist : History c genesis (kept ++ rest)) (fault : Option FileStep)
    (hspared : w.log.buffer ≠ [] → w.Clean ∧ fault.any FileStep.late = false) :
    (∃ kept' rest', kept ++ rest = kept' ++ rest' ∧
      Logged c (finalState (DeltaLog.flush fault w)).disk.data.Shows
        (finalState (DeltaLog.flush fault w)) kept' rest') ∧
    (fault = none → ∃ w', DeltaLog.flush none w = .ok () w' ∧
      Logged c w'.disk.data.Shows w' (kept ++ rest) []) := by
  by_cases hrest : rest = []
  · have hempty : w.log.buffer = [] := by rw [h.buffer, hrest]; rfl
    rw [hrest, List.append_nil]
    rw [hrest] at h
    have hsame : Logged c w.disk.data.Shows { w with log.bytesFlushed := 0 } kept [] := { h with }
    refine ⟨⟨kept, [], by rw [List.append_nil], ?_⟩, fun _ => ⟨_, flush_empty hempty, hsame⟩⟩
    rw [flush_empty hempty]
    exact hsame
  · rcases hspared (h.buffer_ne hrest) with ⟨hclean, hearly⟩
    constructor
    · rcases h.flush hclean hist hrest fault with
        ⟨step, w', -, -, hrun, hsound⟩ | ⟨step, hstep, hlate⟩ | ⟨w', hrun, hsound⟩
      · rw [hrun]
        exact ⟨kept, rest, rfl, hsound⟩
      · rw [hstep, Option.any_some, hlate] at hearly
        cases hearly
      · rw [hrun]
        exact ⟨kept ++ rest, [], by rw [List.append_nil], hsound⟩
    · intro _
      rcases h.flush hclean hist hrest none with
        ⟨step, w', hstep, -⟩ | ⟨step, hstep, -⟩ | ⟨w', hrun, hsound⟩
      · cases hstep
      · cases hstep
      · exact ⟨w', hrun, hsound⟩

/-- An operation keeps the identity of a log. -/
theorem flush_genesis (fault : Option FileStep) (w : LogWorld) :
    (finalState (DeltaLog.flush fault w)).log.genesisTid = w.log.genesisTid := by
  by_cases hbuffer : w.log.buffer = []
  · rw [flush_empty hbuffer]
    rfl
  · have hfields := ensured_fields w.log
    rw [flush_full fault hbuffer]
    rcases flushTo_cases fault w.log.ensured.1 ⟨w.log.ensured.2, w.disk⟩ with
      ⟨step, data, -, -, -, hrun⟩ | ⟨step, slot, -, -, -, hrun⟩ | hrun
    all_goals
      rw [hrun]
      exact hfields.2.2.2.1

namespace LogRun.Whole

variable {r : LogRun}

/-- One spared event keeps a log whole. -/
theorem step (h : r.Whole c genesis) (e : LogEvent) (hspared : e.Spared c r)
    (hgiven : ∀ d ∈ e.given, c.Carries d) : (r.step c e).Whole c genesis := by
  rcases h.sound with ⟨kept, rest, htaken, hsound⟩
  have hist := h.history
  rw [htaken] at hist
  cases e with
  | crash => exact hspared.elim
  | op o fault =>
      -- What the operation took is buffered first, then perhaps flushed.
      have hist' := taken_history hsound o hist h.genesisTid hgiven
      rw [List.append_assoc] at hist'
      have hfields := enter_fields (c := c) o r.world
      have hentered : Logged c (o.enter c r.world).disk.data.Shows (o.enter c r.world) kept
          (rest ++ o.taken r.world.log) := by
        rw [hfields.1]
        exact hsound.enter o
      have htaken' : (r.step c (.op o fault)).taken = kept ++ (rest ++ o.taken r.world.log) := by
        rw [← List.append_assoc, ← htaken]
        rfl
      have hworld : (r.step c (.op o fault)).world = finalState (o.run c fault r.world) := rfl
      rw [op_final] at hworld
      by_cases hflushes : o.flushes r.world.log = true
      · rw [if_pos hflushes] at hworld
        have hclean : (o.enter c r.world).log.buffer ≠ [] →
            (o.enter c r.world).Clean ∧ fault.any FileStep.late = false := fun hbuffer =>
          ⟨(hspared hflushes hbuffer).1.enter o, (hspared hflushes hbuffer).2⟩
        rcases (hentered.flush_final hist' fault hclean).1 with ⟨kept', rest', hsame, hafter⟩
        refine ⟨h.served, ?_, ?_, ⟨kept', rest', ?_, ?_⟩⟩
        · rw [htaken']
          exact hist'
        · rw [hworld, flush_genesis, hfields.2.2.2.1]
          exact h.genesisTid
        · rw [htaken', hsame]
        · rw [hworld]
          exact hafter
      · rw [if_neg hflushes] at hworld
        refine ⟨h.served, ?_, ?_, ⟨kept, rest ++ o.taken r.world.log, htaken', ?_⟩⟩
        · rw [htaken']
          exact hist'
        · rw [hworld, hfields.2.2.2.1]
          exact h.genesisTid
        · rw [hworld]
          exact hentered
  | reopen params =>
      -- A reopened log has what the manifest names, and the buffer is gone.
      rcases open_logged shows_fileFact hsound.named params with
        ⟨w, hopen, hopened, -, -, hmanifest⟩
      have hcommitted : w.disk.committed = r.world.disk.committed := by
        unfold LogDisk.committed
        rw [hmanifest]
      have hgenesis : r.world.disk.committed.genesisTid = genesis :=
        hsound.genesisTid.symm.trans h.genesisTid
      have hkept : r.taken.filter (fun d => d.tid ≤ r.world.disk.committed.watermark) = kept := by
        rw [hsound.named.watermark, hgenesis, htaken]
        exact hist.filter
      have hstep : r.step c (.reopen params) = { r with world := w, taken := kept } := by
        unfold LogRun.step LogRun.opened
        dsimp only
        rw [hopen]
        dsimp only
        rw [hkept]
      rw [hstep]
      refine ⟨h.served, hist.left, ?_, ⟨kept, [], by rw [List.append_nil], hopened⟩⟩
      rw [hopened.genesisTid, hcommitted]
      exact hgenesis

end LogRun.Whole

/-- A log whose flushes start without debris, and fail, if they fail, before the
    counters move, replays every delta it has taken in, once and in order. After a
    flush that returned, so does a log opened on its files. -/
theorem failed_flush (c : DeltaCodec) (params : LogParams) (joined : Option (Nat × List TypeRow))
    (events : List LogEvent) (hgiven : ∀ e ∈ events, ∀ d ∈ e.given, c.Carries d)
    (hspared : EachStep (LogRun.step c) (fun r e => e.Spared c r) (LogRun.start params joined)
      events) :
    let r := (LogRun.start params joined).run c events
    r.refused = false ∧
    r.taken.map Delta.tid = List.range' (genesisOf joined + 1) r.taken.length ∧
    (∀ after, DeltaLog.replay c after r.world = .ok (r.taken.filter fun d => after < d.tid)) ∧
    (r.world.Clean → ∃ w, DeltaLog.flush none r.world = .ok () w ∧
      (∀ after, DeltaLog.replay c after w = .ok (r.taken.filter fun d => after < d.tid)) ∧
      ∀ params', ∃ w', openLog params' w.disk = .ok w' ∧
        ∀ after, DeltaLog.replay c after w' = .ok (r.taken.filter fun d => after < d.tid)) := by
  -- The empty log is whole, and each spared event keeps it so.
  have hstart : (LogRun.start params joined).Whole c (genesisOf joined) := by
    have hstart := startLog_ready (c := c) params joined
    refine ⟨rfl, History.nil, hstart.2.1, ⟨[], [], rfl, ?_⟩⟩
    exact { hstart.1.sound with
      named := hstart.1.sound.named.mono fun _ _ _ hs => hs.bytes.shows }
  have hrun : ((LogRun.start params joined).run c events).Whole c (genesisOf joined) := by
    unfold LogRun.run
    generalize LogRun.start params joined = r at hstart hspared
    induction events generalizing r with
    | nil => exact hstart
    | cons e events ih =>
        have hone := hstart.step e hspared.1 (hgiven e List.mem_cons_self)
        exact ih (fun e' he' => hgiven e' (List.mem_cons_of_mem e he')) _ hone hspared.2
  -- What was taken is what the disk shows, and the rest is in the buffer.
  rcases hrun.sound with ⟨kept, rest, htaken, hsound⟩
  have hist := hrun.history
  refine ⟨hrun.served, hist.tids, fun after => ?_, fun hclean => ?_⟩
  · rw [htaken] at hist ⊢
    exact hsound.replay hist after
  · rw [htaken] at hist ⊢
    rcases (hsound.flush_final hist none fun _ => ⟨hclean, rfl⟩).2 rfl with ⟨w, hflush, hafter⟩
    have hist' : History c (genesisOf joined) (kept ++ rest ++ []) := by
      rw [List.append_nil]
      exact hist
    refine ⟨w, hflush, fun after => ?_, fun params' => ?_⟩
    · have hreplay := hafter.replay hist' after
      rw [List.append_nil] at hreplay
      exact hreplay
    -- A log that is opened behind the flush is the durable part of this one.
    · rcases open_logged shows_fileFact hafter.named params' with ⟨w', hopen, hopened, -, -, -⟩
      refine ⟨w', hopen, fun after => ?_⟩
      have hreplay := hopened.replay hist' after
      rw [List.append_nil] at hreplay
      exact hreplay

/-- A flush that cannot open its segment and is tried again. -/
theorem failed_flush_retried :
    let r := (LogRun.start {} none).run plainCodec
      [.op (.apply (plainDelta 1)) (some .openSegment), .op .flush none, .reopen {}]
    (∀ after, DeltaLog.replay plainCodec after r.world =
      .ok (r.taken.filter fun d => after < d.tid)) ∧ r.taken = [plainDelta 1] := by
  have h := failed_flush plainCodec {} none
    [.op (.apply (plainDelta 1)) (some .openSegment), .op .flush none, .reopen {}]
    (fun e he d hd => by
      rcases List.mem_cons.mp he with rfl | he
      · rw [List.mem_singleton.mp hd]
        exact plainCodec_carries.1
      · rcases List.mem_cons.mp he with rfl | he
        · exact absurd hd List.not_mem_nil
        · rw [List.mem_singleton.mp he] at hd
          exact absurd hd List.not_mem_nil)
    (by decide +kernel)
  exact ⟨h.2.2.1, by decide +kernel⟩

/-- A flush that fails at the manifest leaves its delta in the segment and in the
    buffer. A flush that fails in its write leaves bytes the next one appends to. -/
theorem failed_flush_twice :
    let late := (LogRun.start {} none).run plainCodec
      [.op (.apply (plainDelta 1)) (some .replace)]
    let torn := (LogRun.start {} none).run plainCodec
      [.op (.apply (plainDelta 1)) (some (.write 3)), .op .flush none]
    (late.taken = [plainDelta 1] ∧
      DeltaLog.replay plainCodec 0 late.world = .ok [plainDelta 1, plainDelta 1]) ∧
    torn.taken = [plainDelta 1] ∧
      DeltaLog.replay plainCodec 0 torn.world = .error (.delta .malformed) := by
  refine ⟨⟨by decide +kernel, ?_⟩, by decide +kernel, ?_⟩
  · decide +kernel
  · decide +kernel

end DataCrystal
